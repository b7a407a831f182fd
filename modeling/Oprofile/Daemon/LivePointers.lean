import Oprofile.Daemon.ContextCache
import Oprofile.Daemon.AnonCache
import Oprofile.Daemon.LruIntegrity

/-! What the sfiles and the transient refer to is live. -/
namespace Oprofile.Daemon
namespace DaemonState

/-- The mapping and the image that an sfile refers to are live. -/
structure RefersToLive (s : DaemonState) (x : SfileFields) : Prop where
  anon : ∀ a, x.anon = some a → (s.anons.anons a).isSome = true
  kernel : ∀ k, x.kernel = some k → k ∈ s.images.all.map Prod.fst

variable {s s' s₁ s₂ : DaemonState} {o : Setup} {opts : Options} {sur : Surroundings} {a c l : Nat}
  {buffer buffer' : Buffer} {x : SfileFields}

/-- Every live sfile, and every entry of its call graph, refers to what is live. -/
def TableLive (s : DaemonState) : Prop :=
  ∀ sf ∈ s.table.hashes, RefersToLive s sf.toSfileFields ∧ ∀ cg ∈ sf.cgHash, RefersToLive s cg

/-- An sfile at an address, with the mapping it is for. -/
def LiveWith (s : DaemonState) (addr : Nat) (anon : Option Nat) : Prop := ∃ x ∈ s.table.cores, x.1 = addr ∧ x.2.anon = anon

/-- The transient points to live sfiles, and the mappings kept beside them are theirs. -/
structure PointersLive (s : DaemonState) : Prop where
  table : TableLive s
  kernels : ∀ x ∈ s.table.cores, x.2.kernel.isSome = true → x.2.anon = none
  current : ∀ c, s.trans.current = some c → LiveWith s c s.trans.anon
  last : ∀ l, s.trans.last = some l → LiveWith s l s.trans.lastAnon

/-! ### Searching for a mapping -/

theorem RefersToLive.mono (h : RefersToLive s x) (hanons : ∀ a, (s.anons.anons a).isSome = true → (s'.anons.anons a).isSome = true)
    (himages : s'.images = s.images) : RefersToLive s' x :=
  ⟨fun a ha => hanons a (h.anon a ha), by rw [himages]; exact h.kernel⟩

theorem TableLive.mono (h : TableLive s) (htable : ∀ sf ∈ s'.table.hashes, sf ∈ s.table.hashes)
    (hanons : ∀ a, (s.anons.anons a).isSome = true → (s'.anons.anons a).isSome = true) (himages : s'.images = s.images) :
    TableLive s' := by
  intro sf hsf
  obtain ⟨hfields, hcalls⟩ := h sf (htable sf hsf)
  exact ⟨hfields.mono hanons himages, fun cg hcg => (hcalls cg hcg).mono hanons himages⟩

/-- An sfile that does not refer to a mapping outlives it. -/
theorem RefersToLive.freeAnon (h : RefersToLive s x) (hother : x.anon ≠ some a) : RefersToLive (s.freeAnon a) x := by
  have hanons : (s.freeAnon a).anons = s.anons.remove a := freeAnon_anons s a
  have himages : (s.freeAnon a).images = s.images := by
    rw [DaemonState.freeAnon]
    split_ifs
    · rfl
    · rfl
  refine ⟨fun b hb => ?_, by rw [himages]; exact h.kernel⟩
  have hne : b ≠ a := fun heq => hother (heq ▸ hb)
  rw [hanons, AnonMaps.remove]
  dsimp only
  rw [if_neg hne]
  exact h.anon b hb

theorem LiveWith.freeAnon {anon : Option Nat} (h : LiveWith s c anon) (hother : anon ≠ some a) :
    LiveWith (s.freeAnon a) c anon := by
  obtain ⟨x, hx, haddr, hanon⟩ := h
  refine ⟨x, ?_, haddr, hanon⟩
  rw [freeAnon_table, SfileTable.cores_forEach]
  obtain ⟨sf, hsf, rfl⟩ := List.mem_map.mp hx
  refine List.mem_map_of_mem (List.mem_filter.mpr ⟨hsf, ?_⟩)
  have hne : sf.anon ≠ some a := fun heq => hother (hanon ▸ heq)
  simpa using hne

theorem TableLive.freeAnon (h : TableLive s) : TableLive (s.freeAnon a) := by
  intro sf hsf
  rw [freeAnon_table, SfileTable.forEach] at hsf
  obtain ⟨sf₀, hsf₀, rfl⟩ := List.mem_map.mp hsf
  obtain ⟨hmem, halive⟩ := List.mem_filter.mp hsf₀
  obtain ⟨hfields, hcalls⟩ := h sf₀ hmem
  refine ⟨hfields.freeAnon (by simpa using halive), fun cg hcg => ?_⟩
  obtain ⟨hcg₀, hkept⟩ := List.mem_filter.mp hcg
  exact (hcalls cg hcg₀).freeAnon (by simpa using hkept)

/-- When no context is cached, freeing and taking mappings leaves live pointers. -/
theorem PointersLive.anonStep (h : PointersLive s) (hcurrent : s.trans.current = none) (hstep : AnonStep s s') :
    PointersLive s' := by
  have hnone : s'.trans.current = none := hstep.trans_eq.current.trans hcurrent
  cases hstep with
  | free a =>
    refine ⟨h.table.freeAnon, fun x hx => ?_, fun c hc => (by rw [hnone] at hc; cases hc), fun l hl => ?_⟩
    · exact h.kernels x ((AnonStep.free s a).thinned.cores.subset hx)
    · have htrans : s.trans.lastAnon ≠ some a ∧ (s.freeAnon a).trans = s.trans := by
        unfold DaemonState.freeAnon at hl ⊢
        split_ifs at hl ⊢ with heq
        · cases hl
        · exact ⟨heq, rfl⟩
      rw [htrans.2] at hl ⊢
      exact (h.last l hl).freeAnon htrans.1
  | alloc m =>
    have hanons : ∀ a, (s.anons.anons a).isSome = true → ((s.allocAnon m).anons.anons a).isSome = true := by
      intro a ha
      simp only [allocAnon, AnonMaps.insert]
      split_ifs
      · rfl
      · exact ha
    exact ⟨h.table.mono (fun _ hsf => hsf) hanons rfl, h.kernels, h.current, h.last⟩
  | read => exact ⟨h.table.mono (fun _ hsf => hsf) (fun _ ha => ha) rfl, h.kernels, h.current, h.last⟩

theorem PointersLive.anonSteps (h : PointersLive s) (hcurrent : s.trans.current = none) (hsteps : AnonSteps s s') :
    PointersLive s' := by
  induction hsteps with
  | refl => exact h
  | tail hbefore hstep ih => exact ih.anonStep ((AnonSteps.trans_eq hbefore).current.trans hcurrent) hstep

/-! ### Finding the context of a sample -/

theorem PointersLive.clearTransCurrent (h : PointersLive s) : PointersLive s.clearTransCurrent :=
  ⟨h.table.mono (fun _ hsf => hsf) (fun _ ha => ha) rfl, h.kernels, fun c hc => (by cases hc), h.last⟩

/-- The mapping of a transient is live, and it has none in the kernel. -/
def MappingLive (s : DaemonState) : Prop :=
  ∀ a, s.trans.anon = some a → (s.anons.anons a).isSome = true ∧ s.trans.inKernel = 0

theorem mappingLive_of_none (h : s.trans.anon = none) : MappingLive s := by
  intro a ha
  rw [h] at ha
  cases ha

theorem lookUpAnon_live (h : s.lookUpAnon = some a) : (s.anons.anons a).isSome = true := by
  obtain ⟨m, hm, -⟩ := anonMatch_matches (List.find?_some h)
  rw [hm]
  rfl

theorem PointersLive.setAnon {found : Option Nat} (h : PointersLive s) (hcurrent : s.trans.current = none) :
    PointersLive (setAnon (found, s)) := by
  refine ⟨h.table.mono (fun _ hsf => hsf) (fun _ ha => ha) rfl, h.kernels, fun c hc => ?_, h.last⟩
  have hc : s.trans.current = some c := hc
  rw [hcurrent] at hc
  cases hc

theorem PointersLive.foundAnon (h : PointersLive s) (a : Nat) : PointersLive (s.foundAnon a) :=
  ⟨h.table.mono (fun _ hsf => hsf) (fun _ ha => ha) rfl, h.kernels, h.current, h.last⟩

theorem SameButLast.inKernel {t t' : Transient} (h : SameButLast t t') : t'.inKernel = t.inKernel := by rw [h]

theorem PointersLive.findAnon (sur : Surroundings) (h : PointersLive s) :
    PointersLive (s.clearTransCurrent.dropCached.findAnon sur) ∧
      MappingLive (s.clearTransCurrent.dropCached.findAnon sur) := by
  rcases findAnon_cases s.clearTransCurrent sur with ⟨-, hfind⟩ | ⟨-, -, hfind⟩ | ⟨huser, -, hfind⟩
  · rw [hfind]
    exact ⟨h.clearTransCurrent, mappingLive_of_none rfl⟩
  · rw [hfind]
    exact ⟨h.clearTransCurrent, mappingLive_of_none rfl⟩
  · rw [hfind]
    rcases findAnonMapping_cases s.clearTransCurrent sur with ⟨a, hanon, -, -⟩ | ⟨-, a, hlook, hmapping⟩ |
        ⟨-, -, s', hsteps, -, hcases⟩
    · cases hanon
    · have hlive := lookUpAnon_live hlook
      rw [hmapping]
      refine ⟨(h.clearTransCurrent.foundAnon a).setAnon rfl, fun b hb => ?_⟩
      cases hb
      exact ⟨hlive, huser⟩
    · have hlive : PointersLive s' := h.clearTransCurrent.clearTransCurrent.anonSteps rfl hsteps
      have hsame : SameButLast s.clearTransCurrent.clearTransCurrent.trans s'.trans := hsteps.trans_eq
      rcases hcases with ⟨a, hlook, hmapping⟩ | ⟨-, hmapping⟩
      · have hfound := lookUpAnon_live hlook
        rw [hmapping]
        refine ⟨(hlive.foundAnon a).setAnon hsame.current, fun b hb => ?_⟩
        cases hb
        exact ⟨hfound, hsame.inKernel.trans huser⟩
      · rw [hmapping]
        exact ⟨hlive.setAnon hsame.current, mappingLive_of_none rfl⟩

/-- What a lookup does: it gives up, or it finds an sfile with the selected fields, or it makes one. -/
theorem sfileFind_found {anons : Nat → Option AnonMapping} {t : Transient} {ks : KernelImages} {cmd : Cmdline}
    {tbl tbl' : SfileTable} {r : Found} (h : sfileFind opts anons t ks cmd tbl = some (r, tbl')) :
    (tbl'.hashes = tbl.hashes ∧ (r = .lost ∨ ∃ sf ∈ tbl.hashes, r = .hit sf.addr ∧
        sf.key opts = t.key opts ((locate ks t).map Prod.fst))) ∨
      ∃ hash, r = .created tbl.nextSfile ∧
        tbl'.hashes = createSfile opts t tbl.nextSfile hash (locate ks t) :: tbl.hashes := by
  obtain ⟨cmdlines, heq⟩ := sfileFind_eq opts anons t ks cmd tbl
  rw [heq] at h
  split_ifs at h with hlost
  · cases h
    exact .inl ⟨rfl, .inl rfl⟩
  · obtain ⟨hash, -, ⟨sf, hsf, -, hkey, rfl, rfl⟩ | ⟨-, rfl, rfl⟩⟩ := findSfile_cases h
    · exact .inl ⟨rfl, .inr ⟨sf, hsf, rfl, hkey⟩⟩
    · exact .inr ⟨hash, rfl, rfl⟩

theorem locate_some {ks : KernelImages} {t : Transient} {k : Nat × KernelImage} (h : locate ks t = some k) :
    t.inKernel ≠ 0 ∧ k ∈ ks.all := by
  rw [locate] at h
  split_ifs at h with hkernel
  exact ⟨hkernel, findKernelImage_mem h⟩

/-- The sfile that is found is for the mapping of the transient. -/
theorem PointersLive.key_anon {sf : Sfile} (h : PointersLive s) (hmapping : MappingLive s) (hsf : sf ∈ s.table.hashes)
    (hkey : sf.key opts = s.trans.key opts ((locate s.images s.trans).map Prod.fst)) : sf.anon = s.trans.anon := by
  have hkernel : sf.kernel = (locate s.images s.trans).map Prod.fst := congrArg SfileKey.kernel hkey
  cases hlocate : locate s.images s.trans with
  | none =>
    have himage := congrArg SfileKey.image hkey
    rw [hlocate] at hkernel himage
    simp only [SfileFields.key, Transient.key, selected, hkernel, Option.map_none, Option.isSome_none,
      Bool.false_eq_true, if_false, Option.some_inj, Prod.mk.injEq] at himage
    exact himage.1
  | some k =>
    rw [hlocate] at hkernel
    have hnone : sf.anon = none :=
      h.kernels sf.core (List.mem_map_of_mem hsf) (by rw [show sf.core.2.kernel = sf.kernel from rfl, hkernel]; rfl)
    cases hanon : s.trans.anon with
    | none => exact hnone
    | some a => exact ((locate_some hlocate).1 (hmapping a hanon).2).elim

theorem PointersLive.setFound {cmd : Cmdline} {found : Found × SfileTable} (h : PointersLive s)
    (hmapping : MappingLive s) (hfind : sfileFind opts s.anons.anons s.trans s.images cmd s.table = some found) :
    PointersLive (s.setFound found) := by
  obtain ⟨r, tbl'⟩ := found
  rcases sfileFind_found hfind with ⟨hsame, hr⟩ | ⟨hash, rfl, hnew⟩
  · have hcores : tbl'.cores = s.table.cores := by rw [SfileTable.cores, hsame, SfileTable.cores]
    refine ⟨h.table.mono (fun sf hsf => hsame ▸ hsf) (fun _ ha => ha) rfl, fun x hx => h.kernels x (hcores ▸ hx),
      fun c hc => ?_, fun l hl => ?_⟩
    · rcases hr with rfl | ⟨sf, hsf, rfl, hkey⟩
      · cases hc
      · cases hc
        exact ⟨sf.core, hcores.symm ▸ List.mem_map_of_mem hsf, rfl, h.key_anon hmapping hsf hkey⟩
    · obtain ⟨x, hx, hlive⟩ := h.last l hl
      exact ⟨x, hcores.symm ▸ hx, hlive⟩
  · have hcores : tbl'.cores = (createSfile opts s.trans s.table.nextSfile hash (locate s.images s.trans)).core ::
        s.table.cores := by
      rw [SfileTable.cores, hnew, List.map_cons, SfileTable.cores]
    refine ⟨fun sf hsf => ?_, fun x hx => ?_, fun c hc => ?_, fun l hl => ?_⟩
    · have hsf : sf ∈ tbl'.hashes := hsf
      rw [hnew] at hsf
      rcases List.mem_cons.mp hsf with rfl | hold
      · refine ⟨⟨fun a ha => (hmapping a ha).1, fun k hk => ?_⟩, fun cg hcg => (by cases hcg)⟩
        obtain ⟨image, himage, rfl⟩ := Option.map_eq_some_iff.mp hk
        exact List.mem_map_of_mem (locate_some himage).2
      · obtain ⟨hfields, hcalls⟩ := h.table sf hold
        exact ⟨hfields.mono (fun _ ha => ha) rfl, fun cg hcg => (hcalls cg hcg).mono (fun _ ha => ha) rfl⟩
    · have hx : x ∈ tbl'.cores := hx
      rw [hcores] at hx
      rcases List.mem_cons.mp hx with rfl | hold
      · intro hkernel
        obtain ⟨k, hk⟩ := Option.isSome_iff_exists.mp hkernel
        obtain ⟨image, himage, -⟩ := Option.map_eq_some_iff.mp hk
        cases hanon : s.trans.anon with
        | none => exact hanon
        | some a => exact ((locate_some himage).1 (hmapping a hanon).2).elim
      · exact h.kernels x hold
    · cases hc
      exact ⟨_, hcores.symm ▸ List.mem_cons_self, rfl, rfl⟩
    · obtain ⟨x, hx, hlive⟩ := h.last l hl
      exact ⟨x, hcores.symm ▸ List.mem_cons_of_mem _ hx, hlive⟩

/-- A context that fits is found with live pointers. -/
theorem PointersLive.findContext (h : PointersLive s) (hcached : Cached o s) (hfits : ContextFits s)
    (hcontext : s.findContext o.toOptions sur = some s₁) : PointersLive s₁ := by
  rw [hcached.findContext_eq sur hfits] at hcontext
  obtain ⟨hlive, hmapping⟩ := h.findAnon sur
  rcases findCurrent_cases hcontext with ⟨-, rfl⟩ | ⟨-, found, hfind, rfl⟩
  · exact hlive
  · exact hlive.setFound hmapping hfind

/-! ### Logging and items -/

theorem LiveWith.stays {anon : Option Nat} (h : LiveWith s c anon) (hstays : Stays s s')
    (hheld : s.trans.current = some c ∨ s.trans.last = some c) : LiveWith s' c anon := by
  obtain ⟨x, hx, rfl, hanon⟩ := h
  exact ⟨x, hstays.kept x hx hheld, rfl, hanon⟩

theorem LogStep.table_live (h : TableLive s) (hstored : Stored s) (hlast : ∀ l, s.trans.last = some l → LiveWith s l s.trans.lastAnon)
    (hstep : LogStep opts sur s s') : TableLive s' := by
  have hevict : ∀ sf ∈ (s.evict sur).table.hashes, sf ∈ s.table.hashes := fun sf hsf => List.mem_of_mem_filter hsf
  cases hstep with
  | bump => exact h.mono (fun _ hsf => hsf) (fun _ ha => ha) rfl
  | reach => exact h.mono (fun _ hsf => hsf) (fun _ ha => ha) rfl
  | event => exact h.mono (fun _ hsf => hsf) (fun _ ha => ha) rfl
  | sample => exact h.mono hevict (fun _ ha => ha) rfl
  | @arc entry current last hcurrent hlast' =>
    obtain ⟨x, hx, rfl, -⟩ := hlast last hlast'
    have hfields : RefersToLive s (s.memory.sfiles x.1) := by
      obtain ⟨sf, hsf, -, heq⟩ := SfileTable.mem_cores.mp hx
      rw [hstored.memory x hx, ← heq]
      exact (h sf hsf).1
    have hmono : ∀ y, RefersToLive s y →
        RefersToLive (((s.evict sur).addCgAt opts current (s.memory.sfiles x.1)).log entry) y :=
      fun y hy => hy.mono (fun _ ha => ha) rfl
    intro sf hsf
    obtain ⟨sf₀, hsf₀, rfl⟩ := List.mem_map.mp hsf
    obtain ⟨hself, hcalls⟩ := h sf₀ (hevict sf₀ hsf₀)
    split_ifs
    · rw [Sfile.addCg]
      split_ifs
      · exact ⟨hmono _ hself, fun cg hcg => hmono _ (hcalls cg hcg)⟩
      · refine ⟨hmono _ hself, fun cg hcg => ?_⟩
        rcases List.mem_cons.mp hcg with rfl | hold
        · exact hmono _ ⟨hfields.anon, hfields.kernel⟩
        · exact hmono _ (hcalls cg hold)
    · exact ⟨hmono _ hself, fun cg hcg => hmono _ (hcalls cg hcg)⟩

theorem PointersLive.logStep (h : PointersLive s) (hstored : Stored s) (hstep : LogStep opts sur s s') :
    PointersLive s' := by
  have hstays := hstep.stays
  refine ⟨hstep.table_live h.table hstored h.last, fun x hx => h.kernels x (hstays.thinned.cores.subset hx), ?_, ?_⟩
  · rw [hstays.trans_eq]
    exact fun c hc => (h.current c hc).stays hstays (.inl hc)
  · rw [hstays.trans_eq]
    exact fun l hl => (h.last l hl).stays hstays (.inr hl)

theorem PointersLive.logSteps (h : PointersLive s) (hstored : Stored s) (hsteps : LogSteps opts sur s s') :
    PointersLive s' := by
  induction hsteps with
  | refl => exact h
  | tail hbefore hstep ih =>
    have hstays := LogSteps.stays hbefore
    exact ih.logStep (hstored.thinned hstays.thinned (by rw [hstays.memory])) hstep

theorem PointersLive.finishSample (h : PointersLive s) : PointersLive s.finishSample := by
  have htable : TableLive s.finishSample := h.table.mono (fun _ hsf => hsf) (fun _ ha => ha) rfl
  unfold DaemonState.finishSample at htable ⊢
  dsimp only at htable ⊢
  split
  all_goals
    rename_i hstart
    simp only [hstart, if_true, if_false] at htable
    exact ⟨htable, h.kernels, h.current, h.current⟩

theorem PointersLive.begin {pc event : UInt64} {inKernel : Int} {stats : DaemonStat → Nat} {samples : Nat}
    (h : PointersLive s) : PointersLive (s.beginAs pc event inKernel stats samples) :=
  ⟨h.table.mono (fun _ hsf => hsf) (fun _ ha => ha) rfl, h.kernels, h.current, h.last⟩

theorem foldl_createModule (images : List KernelImage) (s : DaemonState) :
    (images.foldl opdCreateModule s).table = s.table ∧ (images.foldl opdCreateModule s).anons = s.anons := by
  induction images generalizing s with
  | nil => exact ⟨rfl, rfl⟩
  | cons image images ih => exact ih (s.opdCreateModule image)

/-- No sfile of the kernel outlives the modules. -/
theorem TableLive.codeModuleLoaded (h : TableLive s) : TableLive (s.codeModuleLoaded sur) := by
  have hread : TableLive (s.opdRereadModuleInfo sur) := by
    rw [opdRereadModuleInfo]
    split_ifs
    · exact h
    · obtain ⟨htable, hanons⟩ := foldl_createModule (sur.modules s.modulesRead)
        { s.opdClearModules with modulesRead := s.modulesRead + 1 }
      have hlive : ∀ x, RefersToLive s x → x.kernel = none →
          RefersToLive ((sur.modules s.modulesRead).foldl opdCreateModule
            { s.opdClearModules with modulesRead := s.modulesRead + 1 }) x := by
        intro x hx hkernel
        refine ⟨fun a ha => ?_, fun k hk => ?_⟩
        · rw [hanons]
          exact hx.anon a ha
        · rw [hkernel] at hk
          cases hk
      intro sf hsf
      rw [htable] at hsf
      obtain ⟨sf₀, hsf₀, rfl⟩ := List.mem_map.mp hsf
      obtain ⟨hmem, halive⟩ := List.mem_filter.mp hsf₀
      obtain ⟨hfields, hcalls⟩ := h sf₀ hmem
      refine ⟨hlive _ hfields (by simpa using halive), fun cg hcg => ?_⟩
      obtain ⟨hcg₀, hkept⟩ := List.mem_filter.mp hcg
      exact hlive _ (hcalls cg hcg₀) (by simpa using hkept)
  exact hread.mono (fun _ hsf => hsf) (fun _ ha => ha) rfl

theorem PointersLive.step (h : PointersLive s) (hcached : Cached o s)
    (hfits : ∀ s₀, LooksUp o s buffer s₀ → ContextFits s₀) (hstep : ItemStep o sur s buffer s') : PointersLive s' := by
  cases hstep with
  | counted pc stats samples => exact h.begin
  | switched t stats hcurrent hanon hlast hoffset =>
    refine ⟨h.table.mono (fun _ hsf => hsf) (fun _ ha => ha) rfl, h.kernels, fun c hc => ?_, fun l hl => ?_⟩
    · have hc : t.current = some c := hc
      rw [hcurrent] at hc
      cases hc
    · have hl : t.last = some l := hl
      rcases hlast with ⟨hsame, hlastAnon⟩ | hnone
      · show LiveWith s l t.lastAnon
        rw [hlastAnon]
        exact h.last l (hsame ▸ hl)
      · rw [hnone] at hl
        cases hl
  | modules =>
    refine ⟨h.table.codeModuleLoaded, fun x hx => ?_, fun c hc => (by cases hc), fun l hl => (by cases hl)⟩
    exact h.kernels x ((opdRereadModuleInfo_kept s sur).1.cores.subset hx)
  | trace => exact ⟨h.table.mono (fun _ hsf => hsf) (fun _ ha => ha) rfl, h.kernels, h.current, h.last⟩
  | xen =>
    exact ⟨h.table.mono (fun _ hsf => hsf) (fun _ ha => ha) rfl, h.kernels, fun c hc => (by cases hc), h.last⟩
  | @sample s₀ s₁ s₂ hlooks hcontext hlog =>
    obtain ⟨pc, event, inKernel, stats, samples, hkernel, heq⟩ := hlooks.begins
    have hbegin : Cached o s₀ := heq ▸ hcached.begin hkernel
    have hlive : PointersLive s₀ := heq ▸ h.begin
    have hfound := hlive.findContext hbegin (hfits s₀ hlooks) hcontext
    exact (hfound.logSteps (hbegin.stored.findContext hcontext) hlog).finishSample

/-! ### Runs over any number of buffers -/

/-- The rounds of a run over any number of buffers, from the start of the daemon, all of whose items are as they should
be. -/
inductive RunWhere (P : DaemonState → Buffer → Prop) (o : Setup) (sur : Surroundings) : DaemonState → Buffer → Prop
  | init (images : KernelImages) (buffer : Buffer) : RunWhere P o sur (DaemonState.init images).startBuffer buffer
  | item {s s' : DaemonState} {buffer buffer' : Buffer} (hrun : RunWhere P o sur s buffer) (hP : P s buffer)
      (hitem : s.processItem o sur buffer = some (s', buffer')) : RunWhere P o sur s' buffer'
  | next {s : DaemonState} (hrun : RunWhere P o sur s []) (buffer : Buffer) : RunWhere P o sur s.startBuffer buffer

/-- The cached context fits at an item if it is a sample. -/
def ItemFits (o : Setup) (s : DaemonState) (buffer : Buffer) : Prop := ∀ s₀, LooksUp o s buffer s₀ → ContextFits s₀

theorem RunWhere.live (h : RunWhere (ItemFits o) o sur s buffer) : Cached o s ∧ PointersLive s := by
  induction h with
  | init images buffer =>
    have hstored := stored_init images
    refine ⟨cached_of_none ⟨hstored.memory, hstored.addrs, hstored.fresh⟩ rfl rfl rfl, fun sf hsf => (by cases hsf),
      fun x hx => (by cases hx), fun c hc => (by cases hc), fun l hl => (by cases hl)⟩
  | item _ hfits hitem ih =>
    obtain ⟨hcached, hlive⟩ := ih
    have hstep := processItem_step hitem
    exact ⟨hcached.step hfits hstep, hlive.step hcached hfits hstep⟩
  | next _ buffer ih =>
    obtain ⟨hcached, hlive⟩ := ih
    exact ⟨cached_of_none ⟨hcached.stored.memory, hcached.stored.addrs, hcached.stored.fresh⟩ rfl rfl rfl,
      hlive.table.mono (fun _ hsf => hsf) (fun _ ha => ha) rfl, hlive.kernels, fun c hc => (by cases hc),
      fun l hl => (by cases hl)⟩

/-- An sfile at an address that is live. -/
def LiveAt (s : DaemonState) (addr : Nat) : Prop := ∃ sf ∈ s.table.hashes, sf.addr = addr

/-- What the sfiles refer to is live, and so are the sfiles that a sample dereferences once it has its context: that of
the sample, and that of the sample before. -/
def NoDangling (o : Setup) (sur : Surroundings) (s : DaemonState) (buffer : Buffer) : Prop :=
  TableLive s ∧ ∀ s₀ s₁, LooksUp o s buffer s₀ → s₀.findContext o.toOptions sur = some s₁ →
    TableLive s₁ ∧ ∀ c, s₁.trans.current = some c → LiveAt s₁ c ∧ ∀ l, s₁.trans.last = some l → LiveAt s₁ l

end DaemonState

/-- A function for all sfiles removes those it selects and their entries in call graphs, and leaves the others in their
buckets and on the LRU list. -/
def ClearsExactly (dead : SfileFields → Bool) (s : LruState) (cleared : Except LruStop LruState) : Prop :=
  ∃ s', cleared = .ok s' ∧ s'.WellFormed ∧
    s'.table = { s.table with
      hashes := (s.table.hashes.filter fun sf => !dead sf.toSfileFields).map fun sf =>
        { sf with cgHash := sf.cgHash.filter fun cg => !dead cg } }

namespace DaemonState

variable {s s' : DaemonState} {o : Setup} {sur : Surroundings} {buffer : Buffer}

theorem LiveWith.liveAt {c : Nat} {anon : Option Nat} (h : LiveWith s c anon) : LiveAt s c := by
  obtain ⟨x, hx, rfl, -⟩ := h
  obtain ⟨sf, hsf, haddr, -⟩ := SfileTable.mem_cores.mp hx
  exact ⟨sf, hsf, haddr⟩

/-- Nothing dangles in a run at whose samples the cached context fits. -/
theorem RunWhere.noDangling (h : RunWhere (ItemFits o) o sur s buffer) (hfits : ItemFits o s buffer) :
    NoDangling o sur s buffer := by
  obtain ⟨hcached, hlive⟩ := h.live
  refine ⟨hlive.table, fun s₀ s₁ hlooks hcontext => ?_⟩
  obtain ⟨pc, event, inKernel, stats, samples, hkernel, heq⟩ := hlooks.begins
  have hbegin : Cached o s₀ := heq ▸ hcached.begin hkernel
  have hlive₀ : PointersLive s₀ := heq ▸ hlive.begin
  have hfound := hlive₀.findContext hbegin (hfits s₀ hlooks) hcontext
  exact ⟨hfound.table, fun c hc => ⟨(hfound.current c hc).liveAt, fun l hl => (hfound.last l hl).liveAt⟩⟩

/-- Nothing dangles in a run at whose samples the cached context fits, and clearing removes exactly what refers to the
removed object. -/
theorem pointers_live (o : Setup) (sur : Surroundings) :
    (∀ s buffer, RunWhere (ItemFits o) o sur s buffer → ItemFits o s buffer → NoDangling o sur s buffer) ∧
      ∀ (s : LruState) (order : List Nat), OnList s [] order →
        ClearsExactly (fun sf => sf.kernel.isSome) s s.sfileClearKernel ∧
          ∀ anon, ClearsExactly (fun sf => sf.anon = some anon) s (s.sfileClearAnon anon) := by
  refine ⟨fun s buffer h hfits => h.noDangling hfits, fun s order h => ⟨?_, fun anon => ?_⟩⟩
  · obtain ⟨s', order', hclear, htable, hlist⟩ := forEachSfile_spec (fun sf => sf.kernel.isSome) h
    exact ⟨s', hclear, hlist.wellFormed, htable⟩
  · obtain ⟨s', order', hclear, htable, hlist⟩ := forEachSfile_spec (fun sf => decide (sf.anon = some anon)) h
    exact ⟨s', hclear, hlist.wellFormed, htable⟩

/-- The second of two samples in one mapping, and clearing before there are any sfiles. -/
theorem pointers_live_one_mapping :
    (∃ s, RunWhere (ItemFits plainSetup) plainSetup twoMappings s [0x1900, 0] ∧
      NoDangling plainSetup twoMappings s [0x1900, 0]) ∧
    ClearsExactly (fun sf => sf.kernel.isSome) LruState.init LruState.init.sfileClearKernel := by
  obtain ⟨hpointers, hclears⟩ := pointers_live plainSetup twoMappings
  refine ⟨?_, (hclears LruState.init [] onList_init).1⟩
  have hstart : ∃ s, RunWhere (ItemFits plainSetup) plainSetup twoMappings s [0x1800, 0, 0x1900, 0] ∧
      (s.processItem plainSetup twoMappings [0x1800, 0, 0x1900, 0]).any (fun x =>
        x.2 = [0x1900, 0] && x.1.trans.anon = (x.1.beginSample 0x1900 0).lookUpAnon) = true ∧
      s.trans.current = none := by
    have hinit : RunWhere (ItemFits plainSetup) plainSetup twoMappings (DaemonState.init smallImages).startBuffer
        (anonProcess ++ [0x1800, 0, 0x1900, 0]) := .init smallImages _
    have hnone : ∀ s code rest, code ≠ ibsFetchCode → code ≠ ibsOpCode →
        ItemFits plainSetup s (escapeCode :: code :: rest) := by
      intro s code rest hfetch hop s₀ hlooks
      cases hlooks with
      | sample hcode => exact absurd hcode (by decide)
      | fetch => exact absurd rfl hfetch
      | op => exact absurd rfl hop
    refine ⟨_, .item (.item (.item hinit (hnone _ _ _ (by decide) (by decide)) rfl)
      (hnone _ _ _ (by decide) (by decide)) rfl) (hnone _ _ _ (by decide) (by decide)) rfl, ?_, rfl⟩
    decide
  obtain ⟨s, hrun, hitem, hcurrent⟩ := hstart
  obtain ⟨⟨s', buffer'⟩, hsample, hcheck⟩ := (Option.any_eq_true _ _).mp hitem
  rw [Bool.and_eq_true, decide_eq_true_eq, decide_eq_true_eq] at hcheck
  obtain ⟨hbuffer, hmapping⟩ := hcheck
  have hbuffer : buffer' = [0x1900, 0] := hbuffer
  subst hbuffer
  have hfirst : ItemFits plainSetup s [0x1800, 0, 0x1900, 0] := by
    intro s₀ hlooks
    cases hlooks with
    | sample => exact fun _ _ hsome => absurd hsome (by simp [beginSample, hcurrent])
  have hsecond : ItemFits plainSetup s' [0x1900, 0] := by
    intro s₀ hlooks
    cases hlooks with
    | sample => exact fun _ _ _ a ha => hmapping.trans ha
  have hrun' : RunWhere (ItemFits plainSetup) plainSetup twoMappings s' [0x1900, 0] := .item hrun hfirst hsample
  exact ⟨s', hrun', hpointers s' _ hrun' hsecond⟩

end DaemonState
end Oprofile.Daemon
