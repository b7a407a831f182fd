import Oprofile.Daemon.SfileKey
import Mathlib.Logic.Relation
import Mathlib.Logic.Function.Basic

/-! One sfile for one context, over any sequence of lookups and clearings. -/
namespace Oprofile.Daemon

/-- What a lookup depends on. -/
structure World where
  images : KernelImages
  anons : Nat → Option AnonMapping
  table : SfileTable

/-- The daemon before its first buffer. -/
def World.init (noVmlinux : Bool) (vmlinux xen : KernelImage) : World where
  images := { noVmlinux, vmlinux, xen, modules := [] }
  anons := fun _ => none
  table := { hashes := [], kernelCmdlines := [], nextSfile := 0 }

/-- `kill_sfile` for all sfiles that `dead` selects. -/
def SfileTable.clear (tbl : SfileTable) (dead : Sfile → Bool) : SfileTable :=
  { tbl with hashes := tbl.hashes.filter fun sf => !dead sf }

/-- The transients `sfile_find` is called with: no SPU profile, and an anonymous mapping only of the
process and application that run, outside the kernel, without a cookie. -/
structure Allowed (w : World) (t : Transient) : Prop where
  offset : t.embeddedOffset = unusedEmbeddedOffset
  user : t.anon.isSome = true → t.inKernel = 0 ∧ t.cookie = noCookie
  mapping : ∀ a, t.anon = some a →
    ∃ m, w.anons a = some m ∧ m.tgid = t.tgid ∧ m.appCookie = t.appCookie

/-- A lookup, or something else that changes what lookups depend on. -/
inductive Step (o : Options) : World → World → Prop
  | find {w : World} {t : Transient} {c : Cmdline} {r : Found} {tbl : SfileTable}
      (allowed : Allowed w t) (found : sfileFind o w.anons t w.images c w.table = some (r, tbl)) :
      Step o w { w with table := tbl }
  | addAnon {w : World} {a : Nat} (m : AnonMapping) (free : w.anons a = none) :
      Step o w { w with anons := Function.update w.anons a (some m) }
  | clearAnon {w : World} (a : Nat) :
      Step o w { w with
        anons := Function.update w.anons a none
        table := w.table.clear fun sf => sf.anon = some a }
  | createModule {w : World} {a : Nat} (image : KernelImage) (free : 1 < a)
      (fresh : a ∉ w.images.modules.map Prod.fst) :
      Step o w { w with images := { w.images with modules := (a, image) :: w.images.modules } }
  | clearModules {w : World} :
      Step o w { w with
        images := { w.images with modules := [] }
        table := w.table.clear fun sf => sf.kernel.isSome }
  | lruClear {w : World} (dead : Sfile → Bool) : Step o w { w with table := w.table.clear dead }

/-- Any number of steps. -/
abbrev Steps (o : Options) : World → World → Prop := Relation.ReflTransGen (Step o)

/-- The kernel image that a transient lies in, if it is in the kernel. -/
def locate (ks : KernelImages) (t : Transient) : Option (Nat × KernelImage) :=
  if t.inKernel ≠ 0 then findKernelImage ks t.pc else none

/-- Whether `sfile_find` gives a sample up before it looks for an sfile. -/
def discards (ks : KernelImages) (cmdlines : List (Int32 × Bool)) (t : Transient) (c : Cmdline) : Bool :=
  if t.inKernel = -1 then true
  else if t.inKernel ≠ 0 then
    (findKernelImage ks t.pc).isNone ||
      (!(t.tgid = 0 ∨ t.tgid = 1 ∨ t.tgid = 2) && (t.appCookie = noCookie &&
        !(checkCmdline t cmdlines c).1))
  else t.cookie = noCookie && t.anon = none

variable {o : Options} {w w' : World} {t t' : Transient} {c c' : Cmdline} {r r' : Found}
  {tbl tbl' : SfileTable} {sf sf' : Sfile} {ki ki' : Option (Nat × KernelImage)}

/-- Up to the note in `kernel_cmdlines`, `sfile_find` gives up or looks in the table. -/
theorem sfileFind_eq (o : Options) (anons : Nat → Option AnonMapping) (t : Transient)
    (ks : KernelImages) (c : Cmdline) (tbl : SfileTable) :
    ∃ cmdlines, sfileFind o anons t ks c tbl =
      if discards ks tbl.kernelCmdlines t c then some (.lost, { tbl with kernelCmdlines := cmdlines })
      else findSfile o anons t (locate ks t) { tbl with kernelCmdlines := cmdlines } := by
  by_cases hctx : t.inKernel = -1
  · refine ⟨tbl.kernelCmdlines, ?_⟩
    rw [sfileFind, discards, if_pos hctx, if_pos hctx, if_pos rfl]
  by_cases hker : t.inKernel = 0
  · refine ⟨tbl.kernelCmdlines, ?_⟩
    rw [sfileFind, discards, if_neg hctx, if_neg hctx, if_neg (not_not.mpr hker),
      if_neg (not_not.mpr hker), locate, if_neg (not_not.mpr hker)]
    by_cases hlost : t.cookie = noCookie ∧ t.anon = none
    · rw [if_pos hlost, if_pos (by simp [hlost])]
    · rw [if_neg hlost, if_neg (by simpa using hlost)]
  · cases hki : findKernelImage ks t.pc with
    | none =>
      refine ⟨tbl.kernelCmdlines, ?_⟩
      simp [sfileFind, discards, hctx, hker, hki]
    | some ki =>
      by_cases hpid : t.tgid = 0 ∨ t.tgid = 1 ∨ t.tgid = 2
      · refine ⟨tbl.kernelCmdlines, ?_⟩
        simp [sfileFind, discards, locate, hctx, hker, hki, hpid]
      · by_cases happ : t.appCookie = noCookie
        · refine ⟨(checkCmdline t tbl.kernelCmdlines c).2, ?_⟩
          cases hkept : (checkCmdline t tbl.kernelCmdlines c).1 with
          | false => simp [sfileFind, discards, hctx, hker, hki, hpid, happ, hkept]
          | true => simp [sfileFind, discards, locate, hctx, hker, hki, hpid, happ, hkept]
        · refine ⟨tbl.kernelCmdlines, ?_⟩
          simp [sfileFind, discards, locate, hctx, hker, hki, hpid, happ]

/-- All kernel images and their addresses. -/
def KernelImages.all (ks : KernelImages) : List (Nat × KernelImage) :=
  (vmlinuxAddr, ks.vmlinux) :: (xenAddr, ks.xen) :: ks.modules

/-- A transient and its kernel image. -/
structure Located (w : World) (t : Transient) (ki : Option (Nat × KernelImage)) : Prop where
  allowed : Allowed w t
  kernel : ∀ k, ki = some k → t.inKernel ≠ 0 ∧ k ∈ w.images.all
  user : ki = none → t.inKernel = 0

/-- A transient that is looked for. -/
structure Placed (w : World) (t : Transient) (ki : Option (Nat × KernelImage)) : Prop
    extends Located w t ki where
  mapped : ki = none → t.cookie = noCookie → t.anon ≠ none

theorem Placed.of_eq (h : Placed w t ki) (himages : w'.images = w.images) (hanons : w'.anons = w.anons) :
    Placed w' t ki :=
  ⟨⟨⟨h.allowed.offset, h.allowed.user, by rw [hanons]; exact h.allowed.mapping⟩,
    by rw [himages]; exact h.kernel, h.user⟩, h.mapped⟩

theorem findKernelImage_mem {ks : KernelImages} {pc : UInt64} {k : Nat × KernelImage}
    (h : findKernelImage ks pc = some k) : k ∈ ks.all := by
  rw [findKernelImage] at h
  by_cases hno : ks.noVmlinux = true
  · rw [if_pos hno] at h
    cases h
    exact List.mem_cons_self
  rw [if_neg hno] at h
  by_cases hvm : ks.vmlinux.covers pc = true
  · rw [if_pos hvm] at h
    cases h
    exact List.mem_cons_self
  rw [if_neg hvm] at h
  cases hmod : ks.modules.find? fun module => module.2.covers pc with
  | some module =>
    rw [hmod] at h
    cases h
    have hmem := List.mem_of_find?_eq_some hmod
    exact List.mem_cons_of_mem _ (List.mem_cons_of_mem _ hmem)
  | none =>
    simp only [hmod] at h
    split_ifs at h
    cases h
    exact List.mem_cons_of_mem _ List.mem_cons_self

/-- What is not given up is placed. -/
theorem placed_of_not_discards {ks : List (Int32 × Bool)} (hallowed : Allowed w t)
    (h : discards w.images ks t c = false) : Placed w t (locate w.images t) := by
  rw [discards] at h
  split_ifs at h with hctx hker
  · rw [locate, if_pos hker]
    cases hki : findKernelImage w.images t.pc with
    | none =>
      rw [hki] at h
      cases h
    | some ki =>
      refine ⟨⟨hallowed, ?_, fun hnone => (by cases hnone)⟩, fun hnone => (by cases hnone)⟩
      rintro k ⟨⟩
      exact ⟨hker, findKernelImage_mem hki⟩
  · rw [locate, if_neg hker]
    refine ⟨⟨hallowed, fun k hk => (by cases hk), fun _ => not_not.mp hker⟩, ?_⟩
    intro _ hcookie hanon
    simp [hcookie, hanon] at h

/-! The hash reads nothing that is not compared. -/

/-- Only the low bits of a value reach the hash. -/
theorem and_hashBits_congr {a b : UInt64} (h : a.toUInt32 = b.toUInt32) :
    a &&& hashBits = b &&& hashBits := by
  have hlow : ∀ x : UInt64, x &&& hashBits = x.toUInt32.toUInt64 &&& hashBits := by
    intro x
    apply UInt64.toNat_inj.mp
    have hpow : (2047 : Nat) = 2 ^ 11 - 1 := by norm_num
    simp only [UInt64.toNat_and, hashBits, UInt32.toNat_toUInt64, UInt64.toNat_toUInt32,
      UInt64.reduceToNat]
    rw [hpow, Nat.and_two_pow_sub_one_eq_mod, Nat.and_two_pow_sub_one_eq_mod]
    omega
  rw [hlow a, hlow b, h]

/-- What the flags alone put into the hash. -/
def hashBase (o : Options) (t : Transient) (ki : Option Nat) : UInt64 :=
  let val : UInt64 := 0
  let val := if o.separateThread then val ^^^ pidBits t.tid ^^^ pidBits t.tgid else val
  let val := if separatesApp o t.anon ki then val ^^^ (t.appCookie >>> (dcookieShift + 3)) else val
  if o.separateCpu then val ^^^ t.cpu else val

theorem hashBase_congr {k : Option Nat} (hkey : t.key o k = t'.key o k) :
    (hashBase o t k).toUInt32 = (hashBase o t' k).toUInt32 := by
  simp only [Transient.key, selected, SfileKey.mk.injEq, true_and] at hkey
  obtain ⟨hthread, hcpu, happ, himage⟩ := hkey
  have hsep : separatesApp o t.anon k = separatesApp o t'.anon k := by
    cases k with
    | some k => exact separatesApp_kernel o t.anon t'.anon k
    | none =>
      rw [if_neg (by simp), if_neg (by simp), Option.some_inj, Prod.mk.injEq] at himage
      rw [himage.1]
  rw [select_eq_iff] at hthread hcpu
  rw [hsep, select_eq_iff] at happ
  have hthreadBits : (if o.separateThread then (0 : UInt64) ^^^ pidBits t.tid ^^^ pidBits t.tgid else 0) =
      if o.separateThread then (0 : UInt64) ^^^ pidBits t'.tid ^^^ pidBits t'.tgid else 0 := by
    split_ifs with hs
    · obtain ⟨htid, htgid⟩ := Prod.mk.inj (hthread hs)
      rw [htid, htgid]
    · rfl
  have happBits : ∀ v : UInt64,
      (if separatesApp o t.anon k then v ^^^ (t.appCookie >>> (dcookieShift + 3)) else v) =
        if separatesApp o t'.anon k then v ^^^ (t'.appCookie >>> (dcookieShift + 3)) else v := by
    intro v
    rw [hsep]
    split_ifs with hs
    · rw [happ hs]
    · rfl
  have hcpuBits : ∀ v : UInt64, (if o.separateCpu then v ^^^ t.cpu else v).toUInt32 =
      (if o.separateCpu then v ^^^ t'.cpu else v).toUInt32 := by
    intro v
    split_ifs with hs
    · rw [UInt64.toUInt32_xor, UInt64.toUInt32_xor, hcpu hs]
    · rfl
  simp only [hashBase]
  rw [hthreadBits, happBits, hcpuBits]

theorem sfileHash_kernel {anons : Nat → Option AnonMapping} {k : Nat × KernelImage}
    (hin : t.inKernel ≠ 0) : sfileHash o anons t (some k) =
      some ((hashBase o t (some k.1) ^^^ (k.2.start >>> 14) ^^^ (k.2.stop >>> 7)) &&& hashBits) := by
  simp only [sfileHash, if_pos hin]
  rfl

theorem sfileHash_image {anons : Nat → Option AnonMapping} (hcookie : t.cookie ≠ noCookie) :
    sfileHash o anons t none =
      some ((hashBase o t none ^^^ (t.cookie >>> dcookieShift)) &&& hashBits) := by
  simp only [sfileHash, ite_self, if_pos hcookie]
  rfl

theorem sfileHash_anon {anons : Nat → Option AnonMapping} {a : Nat} {m : AnonMapping}
    (hcookie : t.cookie = noCookie) (hanon : t.anon = some a) (hm : anons a = some m) :
    sfileHash o anons t none =
      some (((if o.separateThread then hashBase o t none else hashBase o t none ^^^ pidBits t.tgid) ^^^
        (m.start >>> vmaShift) ^^^ (m.stop >>> (vmaShift + 1))) &&& hashBits) := by
  simp only [sfileHash, ite_self, if_neg (not_not.mpr hcookie), hanon, hm, Option.map_some, hashBase]
  rfl

/-- Transients with the same selected fields fall into one bucket. -/
theorem sfileHash_congr (himages : (w.images.all.map Prod.fst).Nodup) (h : Placed w t ki)
    (h' : Placed w t' ki') (hkey : t.key o (ki.map Prod.fst) = t'.key o (ki'.map Prod.fst)) :
    sfileHash o w.anons t ki = sfileHash o w.anons t' ki' := by
  have haddr : ki.map Prod.fst = ki'.map Prod.fst := congrArg SfileKey.kernel hkey
  cases ki with
  | some k =>
    cases ki' with
    | none => cases haddr
    | some k' =>
      obtain ⟨hin, hmem⟩ := h.kernel k rfl
      obtain ⟨hin', hmem'⟩ := h'.kernel k' rfl
      rw [Option.map_some, Option.map_some, Option.some_inj] at haddr
      obtain rfl := List.inj_on_of_nodup_map himages hmem hmem' haddr
      rw [sfileHash_kernel hin, sfileHash_kernel hin', Option.some_inj]
      apply and_hashBits_congr
      have hbase := hashBase_congr hkey
      simp only [Option.map_some] at hbase
      simp only [UInt64.toUInt32_xor, hbase]
  | none =>
    cases ki' with
    | some k' => cases haddr
    | none =>
      have hbase := hashBase_congr hkey
      have himage := congrArg SfileKey.image hkey
      simp only [Transient.key, selected, Option.map_none, Option.isSome_none, Bool.false_eq_true,
        if_false, Option.some_inj, Prod.mk.injEq] at himage hbase
      obtain ⟨hanon, hcookie⟩ := himage
      by_cases hno : t.cookie = noCookie
      · cases ha : t.anon with
        | none => exact absurd ha (h.mapped rfl hno)
        | some a =>
          obtain ⟨m, hm, htgid, -⟩ := h.allowed.mapping a ha
          obtain ⟨m', hm', htgid', -⟩ := h'.allowed.mapping a (hanon ▸ ha)
          rw [hm, Option.some_inj] at hm'
          rw [sfileHash_anon hno ha hm, sfileHash_anon (hcookie ▸ hno) (hanon ▸ ha) hm, Option.some_inj,
            ← htgid, ← htgid', hm']
          apply and_hashBits_congr
          split_ifs <;> simp only [UInt64.toUInt32_xor, hbase]
      · rw [sfileHash_image hno, sfileHash_image (hcookie ▸ hno), Option.some_inj, ← hcookie]
        apply and_hashBits_congr
        simp only [UInt64.toUInt32_xor, hbase]

/-- An sfile matches a transient that it could be made for now, in its own bucket. -/
def Filed (o : Options) (w : World) (sf : Sfile) : Prop :=
  ∃ t ki, Placed w t ki ∧ t.key o (ki.map Prod.fst) = sf.key o ∧
    sfileHash o w.anons t ki = some sf.hashval

/-- What holds after any sequence of steps. -/
structure WorldOk (o : Options) (w : World) : Prop where
  above : ∀ module ∈ w.images.modules, 1 < module.1
  modules : (w.images.modules.map Prod.fst).Nodup
  filed : ∀ sf ∈ w.table.hashes, Filed o w sf
  fresh : ∀ sf ∈ w.table.hashes, sf.addr < w.table.nextSfile
  addrs : (w.table.hashes.map Sfile.addr).Nodup
  keys : (w.table.hashes.map fun sf => sf.key o).Nodup

theorem WorldOk.images (h : WorldOk o w) : (w.images.all.map Prod.fst).Nodup := by
  have hne : ∀ a ∈ w.images.modules.map Prod.fst, 1 < a := by
    intro a ha
    obtain ⟨module, hmem, rfl⟩ := List.mem_map.mp ha
    exact h.above module hmem
  simp only [KernelImages.all, List.map_cons, List.nodup_cons, List.mem_cons, vmlinuxAddr, xenAddr]
  refine ⟨?_, ?_, h.modules⟩
  · rintro (hzero | hmem)
    · omega
    · exact absurd (hne 0 hmem) (by omega)
  · intro hmem
    exact absurd (hne 1 hmem) (by omega)

theorem worldOk_init (noVmlinux : Bool) (vmlinux xen : KernelImage) :
    WorldOk o (World.init noVmlinux vmlinux xen) where
  above := by
    intro module hmem
    cases hmem
  modules := List.nodup_nil
  filed := by
    intro sf hmem
    cases hmem
  fresh := by
    intro sf hmem
    cases hmem
  addrs := List.nodup_nil
  keys := List.nodup_nil

/-- Only a transient that is looked for matches. -/
theorem Located.placed (hlocated : Located w t ki) (hfiled : Filed o w sf)
    (hkey : sf.key o = t.key o (ki.map Prod.fst)) : Placed w t ki := by
  refine ⟨hlocated, ?_⟩
  rintro rfl hcookie hanon
  obtain ⟨t₀, ki₀, hplaced₀, hkey₀, -⟩ := hfiled
  have hsame := hkey₀.trans hkey
  have hnone : ki₀ = none := Option.map_eq_none_iff.mp (congrArg SfileKey.kernel hsame)
  subst hnone
  have himage := congrArg SfileKey.image hsame
  simp only [Transient.key, selected, Option.map_none, Option.isSome_none, Bool.false_eq_true,
    if_false, Option.some_inj, Prod.mk.injEq] at himage
  exact hplaced₀.mapped rfl (himage.2.trans hcookie) (himage.1.trans hanon)

/-- A matching transient falls into the bucket of the sfile. -/
theorem WorldOk.hash_of_match (h : WorldOk o w) (hlocated : Located w t ki) (hsf : sf ∈ w.table.hashes)
    (hmatch : transMatch o t sf.toSfileFields (ki.map Prod.fst) = true) :
    sfileHash o w.anons t ki = some sf.hashval := by
  have hkey := transMatch_iff.mp hmatch
  have hplaced := hlocated.placed (h.filed sf hsf) hkey
  obtain ⟨t₀, ki₀, hplaced₀, hkey₀, hhash₀⟩ := h.filed sf hsf
  rw [← hhash₀]
  apply sfileHash_congr h.images hplaced hplaced₀
  rw [hkey₀, hkey]

theorem WorldOk.unique (h : WorldOk o w) (hsf : sf ∈ w.table.hashes) (hsf' : sf' ∈ w.table.hashes)
    (hkey : sf.key o = sf'.key o) : sf = sf' :=
  List.inj_on_of_nodup_map h.keys hsf hsf' hkey

/-- An sfile stays filed when no object that its context names changes. -/
theorem Filed.mono (h : Filed o w sf)
    (hanon : ∀ a, sf.anon = some a → sf.kernel = none → w'.anons a = w.anons a)
    (hkernel : ∀ k ∈ w.images.all, sf.kernel = some k.1 → k ∈ w'.images.all) : Filed o w' sf := by
  obtain ⟨t, ki, hplaced, hkey, hhash⟩ := h
  have hk : ki.map Prod.fst = sf.kernel := congrArg SfileKey.kernel hkey
  have ha : ∀ a, t.anon = some a → w'.anons a = w.anons a := by
    intro a ha
    obtain ⟨hin, -⟩ := hplaced.allowed.user (by rw [ha]; rfl)
    cases ki with
    | some k => exact absurd hin (hplaced.kernel k rfl).1
    | none =>
      have himage := congrArg SfileKey.image hkey
      simp only [Transient.key, SfileFields.key, selected, ← hk, Option.map_none,
        Option.isSome_none, Bool.false_eq_true, if_false, Option.some_inj, Prod.mk.injEq] at himage
      exact hanon a (himage.1 ▸ ha) hk.symm
  refine ⟨t, ki, ⟨⟨⟨hplaced.allowed.offset, hplaced.allowed.user, ?_⟩, ?_, hplaced.user⟩,
    hplaced.mapped⟩, hkey, ?_⟩
  · intro a hta
    rw [ha a hta]
    exact hplaced.allowed.mapping a hta
  · intro k hki
    obtain ⟨hin, hmem⟩ := hplaced.kernel k hki
    refine ⟨hin, hkernel k hmem ?_⟩
    rw [← hk, hki]
    rfl
  · rw [← hhash]
    cases hta : t.anon with
    | none => simp only [sfileHash, hta]
    | some a => simp only [sfileHash, hta, ha a hta]

/-- The mapping of a filed sfile is there. -/
theorem Filed.anon_live {a : Nat} (h : Filed o w sf) (hkernel : sf.kernel = none)
    (hanon : sf.anon = some a) : ∃ m, w.anons a = some m := by
  obtain ⟨t, ki, hplaced, hkey, -⟩ := h
  have hk : ki.map Prod.fst = sf.kernel := congrArg SfileKey.kernel hkey
  have himage := congrArg SfileKey.image hkey
  simp only [Transient.key, SfileFields.key, selected, hk, hkernel, Option.isSome_none,
    Bool.false_eq_true, if_false, Option.some_inj, Prod.mk.injEq] at himage
  obtain ⟨m, hm, -⟩ := hplaced.allowed.mapping a (himage.1.trans hanon)
  exact ⟨m, hm⟩

/-- Clearing sfiles keeps the others as they are. -/
theorem WorldOk.clear (h : WorldOk o w) {dead : Sfile → Bool} (htable : w'.table = w.table.clear dead)
    (habove : ∀ module ∈ w'.images.modules, 1 < module.1)
    (hmodules : (w'.images.modules.map Prod.fst).Nodup)
    (hfiled : ∀ sf ∈ w.table.hashes, dead sf = false → Filed o w' sf) : WorldOk o w' := by
  have hmem : ∀ sf ∈ w'.table.hashes, sf ∈ w.table.hashes ∧ dead sf = false := by
    intro sf hsf
    rw [htable] at hsf
    obtain ⟨hsf, hlive⟩ := List.mem_filter.mp hsf
    rw [Bool.not_eq_true'] at hlive
    exact ⟨hsf, hlive⟩
  have hsub : w'.table.hashes.Sublist w.table.hashes := by
    rw [htable]
    exact List.filter_sublist
  refine ⟨habove, hmodules, ?_, ?_, h.addrs.sublist (hsub.map _), h.keys.sublist (hsub.map _)⟩
  · intro sf hsf
    exact hfiled sf (hmem sf hsf).1 (hmem sf hsf).2
  · intro sf hsf
    rw [htable]
    exact h.fresh sf (hmem sf hsf).1

theorem SfileTable.clear_none (tbl : SfileTable) : tbl.clear (fun _ => false) = tbl := by
  simp [SfileTable.clear]

/-- What `findSfile` does. -/
theorem findSfile_cases {anons : Nat → Option AnonMapping}
    (h : findSfile o anons t ki tbl = some (r, tbl')) :
    ∃ hash, sfileHash o anons t ki = some hash ∧
      ((∃ sf ∈ tbl.hashes, sf.hashval = hash ∧ sf.key o = t.key o (ki.map Prod.fst) ∧
          r = .hit sf.addr ∧ tbl' = tbl) ∨
        ((∀ sf ∈ tbl.hashes, sf.hashval = hash → sf.key o ≠ t.key o (ki.map Prod.fst)) ∧
          r = .created tbl.nextSfile ∧
          tbl' = { tbl with
            hashes := createSfile o t tbl.nextSfile hash ki :: tbl.hashes
            nextSfile := tbl.nextSfile + 1 })) := by
  rw [findSfile] at h
  cases hhash : sfileHash o anons t ki with
  | none =>
    rw [hhash] at h
    cases h
  | some hash =>
    rw [hhash, Option.map_some] at h
    refine ⟨hash, rfl, ?_⟩
    cases hfind : tbl.hashes.find? fun sf =>
        decide (sf.hashval = hash) && transMatch o t sf.toSfileFields (ki.map Prod.fst) with
    | some sf =>
      rw [hfind] at h
      cases h
      have hmatch := List.find?_some hfind
      rw [Bool.and_eq_true] at hmatch
      exact Or.inl ⟨sf, List.mem_of_find?_eq_some hfind, of_decide_eq_true hmatch.1,
        transMatch_iff.mp hmatch.2, rfl, rfl⟩
    | none =>
      rw [hfind] at h
      cases h
      refine Or.inr ⟨?_, rfl, rfl⟩
      intro sf hsf hval hkey
      have hno := List.find?_eq_none.mp hfind sf hsf
      apply hno
      rw [Bool.and_eq_true]
      exact ⟨decide_eq_true hval, transMatch_iff.mpr hkey⟩

/-- The file that a lookup returns is filed under the selected fields, and nothing else changes. -/
theorem WorldOk.findSfile (h : WorldOk o w) (hplaced : Placed w t ki)
    (hfound : findSfile o w.anons t ki w.table = some (r, tbl)) :
    WorldOk o { w with table := tbl } ∧
      (∃ sf ∈ tbl.hashes, r.sfile = some sf.addr ∧ sf.key o = t.key o (ki.map Prod.fst)) ∧
      ∀ sf ∈ w.table.hashes, sf ∈ tbl.hashes := by
  obtain ⟨hash, hhash, hcases⟩ := findSfile_cases hfound
  rcases hcases with ⟨sf, hsf, -, hkey, rfl, rfl⟩ | ⟨hno, rfl, rfl⟩
  · exact ⟨h, ⟨sf, hsf, rfl, hkey⟩, fun sf hsf => hsf⟩
  · have hnew : (createSfile o t w.table.nextSfile hash ki).key o = t.key o (ki.map Prod.fst) := by
      apply createSfile_key hplaced.allowed.offset
      exact hplaced.user
    refine ⟨⟨h.above, h.modules, ?_, ?_, ?_, ?_⟩, ?_, ?_⟩
    · intro sf hsf
      rcases List.mem_cons.mp hsf with rfl | hsf
      · exact ⟨t, ki, hplaced.of_eq rfl rfl, hnew.symm, hhash⟩
      · exact (h.filed sf hsf).mono (fun _ _ _ => rfl) fun _ hk _ => hk
    · intro sf hsf
      rcases List.mem_cons.mp hsf with rfl | hsf
      · exact Nat.lt_succ_self _
      · exact Nat.lt_succ_of_lt (h.fresh sf hsf)
    · refine List.nodup_cons.mpr ⟨?_, h.addrs⟩
      intro hmem
      obtain ⟨sf, hsf, haddr⟩ := List.mem_map.mp hmem
      have hlt := h.fresh sf hsf
      rw [haddr] at hlt
      exact absurd hlt (Nat.lt_irrefl _)
    · refine List.nodup_cons.mpr ⟨?_, h.keys⟩
      intro hmem
      obtain ⟨sf, hsf, hsame⟩ := List.mem_map.mp hmem
      have hkey := hsame.trans hnew
      refine hno sf hsf ?_ hkey
      have hown := h.hash_of_match hplaced.toLocated hsf (transMatch_iff.mpr hkey)
      rw [hhash, Option.some_inj] at hown
      exact hown.symm
    · exact ⟨_, List.mem_cons_self, rfl, hnew⟩
    · intro sf hsf
      exact List.mem_cons_of_mem _ hsf

/-- What is noted about command lines has no part in it. -/
theorem WorldOk.note (h : WorldOk o w) (cmdlines : List (Int32 × Bool)) :
    WorldOk o { w with table := { w.table with kernelCmdlines := cmdlines } } where
  above := h.above
  modules := h.modules
  filed := by
    intro sf hsf
    exact (h.filed sf hsf).mono (fun _ _ _ => rfl) fun _ hk _ => hk
  fresh := h.fresh
  addrs := h.addrs
  keys := h.keys

/-- `sfile_find` gives up, or it returns the one sfile with the selected fields. -/
theorem WorldOk.sfileFind (h : WorldOk o w) (hallowed : Allowed w t)
    (hfound : sfileFind o w.anons t w.images c w.table = some (r, tbl)) :
    WorldOk o { w with table := tbl } ∧ (∀ sf ∈ w.table.hashes, sf ∈ tbl.hashes) ∧
      ((discards w.images w.table.kernelCmdlines t c = true ∧ r = .lost) ∨
        (discards w.images w.table.kernelCmdlines t c = false ∧ ∃ sf ∈ tbl.hashes,
          r.sfile = some sf.addr ∧ sf.key o = t.key o ((locate w.images t).map Prod.fst))) := by
  obtain ⟨cmdlines, heq⟩ := sfileFind_eq o w.anons t w.images c w.table
  rw [heq] at hfound
  cases hlost : discards w.images w.table.kernelCmdlines t c with
  | true =>
    rw [hlost, if_pos rfl] at hfound
    cases hfound
    exact ⟨h.note cmdlines, fun sf hsf => hsf, Or.inl ⟨rfl, rfl⟩⟩
  | false =>
    rw [hlost, if_neg Bool.false_ne_true] at hfound
    have hplaced := placed_of_not_discards hallowed hlost
    have hplaced' : Placed { w with table := { w.table with kernelCmdlines := cmdlines } } t
        (locate w.images t) := hplaced.of_eq rfl rfl
    obtain ⟨hok, hsf, hkeep⟩ := (h.note cmdlines).findSfile hplaced' hfound
    exact ⟨hok, hkeep, Or.inr ⟨rfl, hsf⟩⟩

theorem step_ok (hstep : Step o w w') (h : WorldOk o w) : WorldOk o w' := by
  cases hstep with
  | find allowed found => exact (h.sfileFind allowed found).1
  | addAnon m free =>
    refine h.clear (SfileTable.clear_none _).symm h.above h.modules ?_
    intro sf hsf _
    apply (h.filed sf hsf).mono
    · intro a hanon hkernel
      obtain ⟨m', hm'⟩ := (h.filed sf hsf).anon_live hkernel hanon
      apply Function.update_of_ne
      rintro rfl
      rw [free] at hm'
      cases hm'
    · exact fun _ hk _ => hk
  | clearAnon a =>
    refine h.clear rfl h.above h.modules ?_
    intro sf hsf hlive
    apply (h.filed sf hsf).mono
    · intro a' hanon _
      apply Function.update_of_ne
      rintro rfl
      exact absurd hanon (of_decide_eq_false hlive)
    · exact fun _ hk _ => hk
  | createModule image free fresh =>
    refine h.clear (SfileTable.clear_none _).symm ?_ (List.nodup_cons.mpr ⟨fresh, h.modules⟩) ?_
    · intro module hmem
      rcases List.mem_cons.mp hmem with rfl | hmem
      · exact free
      · exact h.above module hmem
    · intro sf hsf _
      refine (h.filed sf hsf).mono (fun _ _ _ => rfl) ?_
      intro k hk _
      rcases List.mem_cons.mp hk with rfl | hk
      · exact List.mem_cons_self
      · rcases List.mem_cons.mp hk with rfl | hk
        · exact List.mem_cons_of_mem _ List.mem_cons_self
        · exact List.mem_cons_of_mem _ (List.mem_cons_of_mem _ (List.mem_cons_of_mem _ hk))
  | clearModules =>
    refine h.clear rfl ?_ List.nodup_nil ?_
    · intro module hmem
      cases hmem
    · intro sf hsf hlive
      refine (h.filed sf hsf).mono (fun _ _ _ => rfl) ?_
      intro k _ hkernel
      rw [hkernel] at hlive
      cases hlive
  | lruClear dead =>
    refine h.clear rfl h.above h.modules ?_
    intro sf hsf _
    exact (h.filed sf hsf).mono (fun _ _ _ => rfl) fun _ hk _ => hk

theorem steps_ok (hsteps : Steps o w w') (h : WorldOk o w) : WorldOk o w' := by
  induction hsteps with
  | refl => exact h
  | tail _ hstep ih => exact step_ok hstep ih

/-- An address is not given to another sfile. -/
structure Keeps (w w' : World) : Prop where
  next : w.table.nextSfile ≤ w'.table.nextSfile
  old : ∀ sf ∈ w'.table.hashes, sf ∈ w.table.hashes ∨ w.table.nextSfile ≤ sf.addr

theorem Keeps.clear {dead : Sfile → Bool} (htable : w'.table = w.table.clear dead) : Keeps w w' := by
  refine ⟨by rw [htable]; exact le_rfl, ?_⟩
  intro sf hsf
  rw [htable] at hsf
  exact Or.inl (List.mem_filter.mp hsf).1

theorem step_keeps (hstep : Step o w w') : Keeps w w' := by
  cases hstep with
  | find allowed found =>
    obtain ⟨cmdlines, heq⟩ := sfileFind_eq o w.anons _ w.images _ w.table
    rw [heq] at found
    split_ifs at found with hlost
    · cases found
      exact ⟨le_rfl, fun sf hsf => Or.inl hsf⟩
    · obtain ⟨hash, -, hcases⟩ := findSfile_cases found
      rcases hcases with ⟨sf, -, -, -, -, rfl⟩ | ⟨-, -, rfl⟩
      · exact ⟨le_rfl, fun sf hsf => Or.inl hsf⟩
      · refine ⟨Nat.le_succ _, ?_⟩
        intro sf hsf
        rcases List.mem_cons.mp hsf with rfl | hsf
        · exact Or.inr le_rfl
        · exact Or.inl hsf
  | addAnon m free => exact Keeps.clear (SfileTable.clear_none _).symm
  | clearAnon a => exact Keeps.clear rfl
  | createModule image free fresh => exact Keeps.clear (SfileTable.clear_none _).symm
  | clearModules => exact Keeps.clear rfl
  | lruClear dead => exact Keeps.clear rfl

theorem steps_keeps (hsteps : Steps o w w') : Keeps w w' := by
  induction hsteps with
  | refl => exact ⟨le_rfl, fun sf hsf => Or.inl hsf⟩
  | tail _ hstep ih =>
    have hlast := step_keeps hstep
    refine ⟨ih.next.trans hlast.next, ?_⟩
    intro sf hsf
    rcases hlast.old sf hsf with hsf | hle
    · exact ih.old sf hsf
    · exact Or.inr (ih.next.trans hle)

/-- What is at the address of an sfile is that sfile, as long as it was not cleared. -/
theorem Keeps.same (hkeeps : Keeps w w') (h : WorldOk o w) (hsf : sf ∈ w.table.hashes)
    (hsf' : sf' ∈ w'.table.hashes) (haddr : sf'.addr = sf.addr) : sf' = sf := by
  have hfresh := h.fresh sf hsf
  rcases hkeeps.old sf' hsf' with hold | hle
  · exact List.inj_on_of_nodup_map h.addrs hold hsf haddr
  · rw [haddr] at hle
    exact absurd hfresh (Nat.not_lt.mpr hle)

/-- Whether the sfile at an address is in the table. -/
def SfileTable.live (tbl : SfileTable) (addr : Nat) : Prop := ∃ sf ∈ tbl.hashes, sf.addr = addr

/-- For any flags and any sequence of lookups and clearings from an empty table: a transient that
matches a live sfile hashes to its bucket, no two live sfiles match one transient, and two lookups that
are not given up, of transients with the same selected fields, return the same sfile unless it was
cleared in between. -/
theorem sfile_identity (o : Options) (noVmlinux : Bool) (vmlinux xen : KernelImage) (w : World)
    (hsteps : Steps o (World.init noVmlinux vmlinux xen) w) :
    (∀ t ki, Located w t ki → ∀ sf ∈ w.table.hashes,
      transMatch o t sf.toSfileFields (ki.map Prod.fst) = true →
        sfileHash o w.anons t ki = some sf.hashval ∧
          ∀ sf' ∈ w.table.hashes,
            transMatch o t sf'.toSfileFields (ki.map Prod.fst) = true → sf' = sf) ∧
    ∀ t c r tbl, Allowed w t → sfileFind o w.anons t w.images c w.table = some (r, tbl) →
      (r.sfile = none ↔ discards w.images w.table.kernelCmdlines t c = true) ∧
      ∀ addr, r.sfile = some addr → ∀ w', Steps o { w with table := tbl } w' → w'.table.live addr →
        ∀ t' c' r' tbl', Allowed w' t' →
          sfileFind o w'.anons t' w'.images c' w'.table = some (r', tbl') →
          t'.key o ((locate w'.images t').map Prod.fst) = t.key o ((locate w.images t).map Prod.fst) →
          discards w'.images w'.table.kernelCmdlines t' c' = false → r'.sfile = some addr := by
  have hok := steps_ok hsteps (worldOk_init noVmlinux vmlinux xen)
  refine ⟨?_, ?_⟩
  · intro t ki hlocated sf hsf hmatch
    refine ⟨hok.hash_of_match hlocated hsf hmatch, ?_⟩
    intro sf' hsf' hmatch'
    apply hok.unique hsf' hsf
    rw [transMatch_iff.mp hmatch, transMatch_iff.mp hmatch']
  · intro t c r tbl hallowed hfound
    obtain ⟨hok₁, -, hcases⟩ := hok.sfileFind hallowed hfound
    rcases hcases with ⟨hlost, rfl⟩ | ⟨hkept, sf, hsf, hr, hkey⟩
    · refine ⟨⟨fun _ => hlost, fun _ => rfl⟩, ?_⟩
      intro addr haddr
      cases haddr
    · rw [hr, hkept]
      refine ⟨⟨fun hnone => (by cases hnone), fun htrue => (by cases htrue)⟩, ?_⟩
      intro addr haddr w' hsteps' hlive t' c' r' tbl' hallowed' hfound' hsame hkept'
      rw [Option.some_inj] at haddr
      subst haddr
      obtain ⟨sf', hsf', haddr'⟩ := hlive
      obtain rfl := (steps_keeps hsteps').same hok₁ hsf hsf' haddr'
      have hok' := steps_ok hsteps' hok₁
      obtain ⟨hok₂, hkeep, hcases'⟩ := hok'.sfileFind hallowed' hfound'
      rcases hcases' with ⟨hlost', -⟩ | ⟨-, sf₂, hsf₂, hr₂, hkey₂⟩
      · rw [hkept'] at hlost'
        cases hlost'
      · have hone : sf₂ = sf' := hok₂.unique hsf₂ (hkeep sf' hsf') (by rw [hkey₂, hsame, hkey])
        rw [hr₂, hone]

/-! Two samples in one kernel, taken without any separation: one of the idle task, one of a process
that has a command line but no application cookie. -/

def unseparated : Options where
  separateKernel := false
  separateLib := false
  separateThread := false
  separateCpu := false
  findCookie := fun _ => none
  isImageIgnored := fun _ => false
  isCookieIgnored := fun _ => false
  opNrCounters := 1

def smallVmlinux : KernelImage := ⟨['v', 'm'], 0x1000, 0x2000⟩

def noXen : KernelImage := ⟨['x'], 0, 0⟩

def kernelSample (tgid : Int32) : Transient where
  tracing := .off
  current := none
  last := none
  anon := none
  lastAnon := none
  cookie := invalidCookie
  appCookie := noCookie
  pc := 0x1800
  lastPc := 0
  event := 0
  inKernel := 1
  cpu := 0
  tid := tgid
  tgid := tgid
  embeddedOffset := unusedEmbeddedOffset

theorem kernelSample_allowed (w : World) (tgid : Int32) : Allowed w (kernelSample tgid) :=
  ⟨rfl, fun h => (by cases h), fun a h => (by cases h)⟩

/-- The table once the idle task's sample was looked up. -/
def idleTable : SfileTable where
  hashes := [createSfile unseparated (kernelSample 0) 0 64 (some (vmlinuxAddr, smallVmlinux))]
  kernelCmdlines := []
  nextSfile := 1

theorem idle_found : sfileFind unseparated (fun _ => none) (kernelSample 0)
    (World.init false smallVmlinux noXen).images .present
    (World.init false smallVmlinux noXen).table = some (.created 0, idleTable) := by
  decide

def afterIdle : World := { World.init false smallVmlinux noXen with table := idleTable }

theorem afterIdle_steps : Steps unseparated (World.init false smallVmlinux noXen) afterIdle :=
  Relation.ReflTransGen.single (Step.find (kernelSample_allowed _ 0) idle_found)

/-- A sample of a program with a cookie of its own. -/
def userSample : Transient := { kernelSample 100 with inKernel := 0, cookie := 5 }

theorem userSample_allowed (w : World) : Allowed w userSample :=
  ⟨rfl, fun h => (by cases h), fun a h => (by cases h)⟩

/-- The table once that sample was looked up too. -/
def userTable : SfileTable where
  hashes := createSfile unseparated userSample 1 0 none :: idleTable.hashes
  kernelCmdlines := []
  nextSfile := 2

theorem user_found : sfileFind unseparated afterIdle.anons userSample afterIdle.images .present afterIdle.table =
    some (.created 1, userTable) := by
  decide

def afterUser : World := { afterIdle with table := userTable }

theorem afterUser_steps : Steps unseparated afterIdle afterUser :=
  Relation.ReflTransGen.single (Step.find (userSample_allowed _) user_found)

/-- The idle task's sfile is found in its bucket behind another one, and a sample of the first process finds it too. -/
theorem sfile_identity_idle : sfileHash unseparated afterUser.anons (kernelSample 0)
    (some (vmlinuxAddr, smallVmlinux)) = some 64 ∧ ∃ (r : Found) (tbl : SfileTable),
      sfileFind unseparated afterUser.anons (kernelSample 1) afterUser.images .present afterUser.table = some (r, tbl) ∧
        r.sfile = some 0 := by
  have hlocated : Located afterUser (kernelSample 0) (some (vmlinuxAddr, smallVmlinux)) := by
    refine ⟨kernelSample_allowed _ 0, ?_, fun h => (by cases h)⟩
    rintro k ⟨⟩
    exact ⟨by decide, List.mem_cons_self⟩
  have hidle : createSfile unseparated (kernelSample 0) 0 64 (some (vmlinuxAddr, smallVmlinux)) ∈
      afterUser.table.hashes := List.mem_cons_of_mem _ List.mem_cons_self
  refine ⟨((sfile_identity unseparated false smallVmlinux noXen afterUser (afterIdle_steps.trans afterUser_steps)).1
    (kernelSample 0) (some (vmlinuxAddr, smallVmlinux)) hlocated _ hidle (by decide)).1, ?_⟩
  obtain ⟨⟨r, tbl⟩, hfound⟩ : ∃ found, sfileFind unseparated afterUser.anons (kernelSample 1) afterUser.images .present
    afterUser.table = some found := Option.isSome_iff_exists.mp (by decide)
  exact ⟨r, tbl, hfound, ((sfile_identity unseparated false smallVmlinux noXen _ .refl).2 (kernelSample 0) .present
    (.created 0) idleTable (kernelSample_allowed _ 0) idle_found).2 0 rfl afterUser afterUser_steps ⟨_, hidle, rfl⟩
    (kernelSample 1) .present r tbl (kernelSample_allowed _ 1) hfound (by decide) (by decide)⟩

/-- A second lookup with the same selected fields returns nothing when its sample is dropped: the
process has a command line, so that it ought to have an application cookie. -/
theorem same_context_dropped :
    Allowed (World.init false smallVmlinux noXen) (kernelSample 0) ∧
    sfileFind unseparated (fun _ => none) (kernelSample 0) (World.init false smallVmlinux noXen).images .present
      (World.init false smallVmlinux noXen).table = some (.created 0, idleTable) ∧
    idleTable.live 0 ∧ Allowed afterIdle (kernelSample 100) ∧
    (kernelSample 100).key unseparated ((locate afterIdle.images (kernelSample 100)).map Prod.fst) =
      (kernelSample 0).key unseparated ((locate afterIdle.images (kernelSample 0)).map Prod.fst) ∧
    sfileFind unseparated (fun _ => none) (kernelSample 100) afterIdle.images .present afterIdle.table =
      some (.lost, { idleTable with kernelCmdlines := [(100, true)] }) :=
  ⟨kernelSample_allowed _ 0, idle_found, ⟨_, List.mem_cons_self, rfl⟩, kernelSample_allowed _ 100,
    by decide, by decide⟩

end Oprofile.Daemon
