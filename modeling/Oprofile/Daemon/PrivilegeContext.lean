import Oprofile.Daemon.BufferRecords
import Oprofile.Daemon.LivePointers

/-! The run of a buffer with records of IBS, beside the run without them. -/
namespace Oprofile.Daemon

/-! ### What ignores an sfile -/

/-- Whether an sfile is ignored, from the fields that tell sfiles apart. -/
def SfileFields.isIgnored (o : Options) (images : Nat → KernelImage) (x : SfileFields) : Bool :=
  isSfIgnored o (x.kernel.map fun k => (images k).name) x.anon x.cookie
    (if separatesApp o x.anon x.kernel then x.appCookie else invalidCookie)

variable {o : Setup} {opts : Options} {sur : Surroundings} {tbl tbl' : SfileTable} {t : Transient}
  {anons : Nat → Option AnonMapping} {a c : Nat} {x y : SfileFields} {ks : KernelImages} {found : Found × SfileTable}
  {notes : List (Int32 × Bool)} {cmd : Cmdline} {buffer : Buffer}

/-- The same for the fields that are selected. -/
def SfileKey.isIgnored (o : Options) (images : Nat → KernelImage) (key : SfileKey) : Bool :=
  isSfIgnored o (key.kernel.map fun k => (images k).name) (key.image.bind Prod.fst)
    ((key.image.map Prod.snd).getD invalidCookie) (key.app.getD invalidCookie)

theorem isIgnored_key (images : Nat → KernelImage) (x : SfileFields) :
    x.isIgnored opts images = (x.key opts).isIgnored opts images := by
  have happ : (if separatesApp opts x.anon x.kernel then x.appCookie else invalidCookie) =
      (x.key opts).app.getD invalidCookie := by
    show _ = (if separatesApp opts x.anon x.kernel then some x.appCookie else none).getD invalidCookie
    split_ifs
    · rfl
    · rfl
  rw [SfileFields.isIgnored, SfileKey.isIgnored, happ]
  simp only [SfileFields.key, selected]
  cases x.kernel with
  | none => rfl
  | some k => rfl

theorem isIgnored_congr {images : Nat → KernelImage} (h : x.key opts = y.key opts) :
    x.isIgnored opts images = y.isIgnored opts images := by
  rw [isIgnored_key, isIgnored_key, h]

/-! ### The notes in `kernel_cmdlines` -/

/-- The notes say what the command lines are. -/
def Noted (sur : Surroundings) (notes : List (Int32 × Bool)) : Prop :=
  ∀ note ∈ notes, note.2 = decide (sur.cmdline note.1 ≠ .empty)

theorem checkCmdline_noted (h : Noted sur notes) :
    (checkCmdline t notes (sur.cmdline t.tgid)).1 = decide (sur.cmdline t.tgid = .empty) ∧
      Noted sur (checkCmdline t notes (sur.cmdline t.tgid)).2 := by
  rw [checkCmdline.eq_def]
  cases hfind : notes.find? fun kcmd => kcmd.1 = t.tgid with
  | some note =>
    have hsame := h note (List.mem_of_find?_eq_some hfind)
    have htgid : note.1 = t.tgid := of_decide_eq_true (List.find?_some (p := fun kcmd : Int32 × Bool => kcmd.1 = t.tgid) hfind)
    refine ⟨?_, h⟩
    show (!note.2) = _
    rw [hsame, htgid]
    simp
  | none =>
    cases hcmd : sur.cmdline t.tgid with
    | empty =>
      refine ⟨rfl, fun note hnote => ?_⟩
      rcases List.mem_cons.mp hnote with rfl | hold
      · simp [hcmd]
      · exact h note hold
    | unreadable =>
      refine ⟨rfl, fun note hnote => ?_⟩
      rcases List.mem_cons.mp hnote with rfl | hold
      · simp [hcmd]
      · exact h note hold
    | present =>
      refine ⟨rfl, fun note hnote => ?_⟩
      rcases List.mem_cons.mp hnote with rfl | hold
      · simp [hcmd]
      · exact h note hold

/-- Whether a sample is given up does not depend on the notes. -/
theorem discards_noted (h : Noted sur notes) :
    discards ks notes t (sur.cmdline t.tgid) = discards ks [] t (sur.cmdline t.tgid) := by
  have hnone : Noted sur [] := fun note hnote => (by cases hnote)
  rw [discards, discards, (checkCmdline_noted h).1, (checkCmdline_noted hnone).1]

theorem findSfile_notes {ki : Option (Nat × KernelImage)} (h : findSfile opts anons t ki tbl = some found) :
    found.2.kernelCmdlines = tbl.kernelCmdlines := by
  obtain ⟨r, tbl'⟩ := found
  obtain ⟨hash, -, ⟨sf, -, -, -, -, rfl⟩ | ⟨-, -, rfl⟩⟩ := findSfile_cases h
  · rfl
  · rfl

theorem sfileFind_notes (h : Noted sur tbl.kernelCmdlines)
    (hfind : sfileFind opts anons t ks (sur.cmdline t.tgid) tbl = some found) : Noted sur found.2.kernelCmdlines := by
  rw [sfileFind] at hfind
  by_cases hcontext : t.inKernel = -1
  · rw [if_pos hcontext] at hfind
    cases hfind
    exact h
  rw [if_neg hcontext] at hfind
  by_cases hkernel : t.inKernel = 0
  · rw [if_neg (not_not.mpr hkernel)] at hfind
    by_cases hnowhere : t.cookie = noCookie ∧ t.anon = none
    · rw [if_pos hnowhere] at hfind
      cases hfind
      exact h
    · rw [if_neg hnowhere] at hfind
      rw [findSfile_notes hfind]
      exact h
  rw [if_pos hkernel] at hfind
  cases hki : findKernelImage ks t.pc with
  | none =>
    rw [hki] at hfind
    cases hfind
    exact h
  | some ki =>
    rw [hki] at hfind
    dsimp only at hfind
    by_cases hpid : t.tgid = 0 ∨ t.tgid = 1 ∨ t.tgid = 2
    · rw [if_pos hpid] at hfind
      rw [findSfile_notes hfind]
      exact h
    rw [if_neg hpid] at hfind
    by_cases happ : t.appCookie = noCookie
    · rw [if_pos happ] at hfind
      split_ifs at hfind with hkept
      · rw [findSfile_notes hfind]
        exact (checkCmdline_noted h).2
      · cases hfind
        exact (checkCmdline_noted h).2
    · rw [if_neg happ] at hfind
      rw [findSfile_notes hfind]
      exact h

/-- A sample that is given up has no key; another has that of its kernel image. -/
def contextKey (o : Options) (sur : Surroundings) (ks : KernelImages) (t : Transient) : Option SfileKey :=
  if discards ks [] t (sur.cmdline t.tgid) then none else some (t.key o ((locate ks t).map Prod.fst))

theorem locate_of_not_discards (h : discards ks notes t cmd = false) (hnone : locate ks t = none) : t.inKernel = 0 := by
  by_contra hkernel
  rw [locate, if_pos hkernel] at hnone
  rw [discards, hnone, if_pos hkernel] at h
  split_ifs at h
  simp at h

theorem createSfile_isIgnored (o : Options) (addr : Nat) (hash : UInt64) {images : Nat → KernelImage}
    {ki : Option (Nat × KernelImage)} (hoffset : t.embeddedOffset = unusedEmbeddedOffset) (hki : ∀ k, ki = some k → images k.1 = k.2) :
    (createSfile o t addr hash ki).ignored =
      (createSfile o t addr hash ki).toSfileFields.isIgnored o images := by
  have hname : ki.map (·.2.name) = (ki.map Prod.fst).map fun k => (images k).name := by
    cases ki with
    | none => rfl
    | some k => rw [Option.map_some, Option.map_some, Option.map_some, hki k rfl]
  rw [SfileFields.isIgnored]
  simp only [createSfile, hname, hoffset, ne_eq, not_true_eq_false, if_false]
  split_ifs
  all_goals rfl

namespace DaemonState

variable {s s' s₁ s₂ f f' r r' : DaemonState}

/-- The fields of `trans->current` and of `trans->last`. -/
def currentSfile (s : DaemonState) : Option SfileFields := s.trans.current.map s.memory.sfiles

def lastSfile (s : DaemonState) : Option SfileFields := s.trans.last.map s.memory.sfiles

/-- What is known of the daemon in every run. -/
structure Sound (o : Setup) (sur : Surroundings) (s : DaemonState) : Prop where
  stored : Stored s
  offset : s.trans.embeddedOffset = unusedEmbeddedOffset
  images : ∀ k ∈ s.images.all, s.memory.images k.1 = k.2 ∧ k.1 < s.nextImage
  filed : ∀ addr < s.table.nextSfile, ((s.memory.sfiles addr).ignored = (s.memory.sfiles addr).isIgnored o.toOptions s.memory.images) ∧
    ∀ k, (s.memory.sfiles addr).kernel = some k → k < s.nextImage
  notes : Noted sur s.table.kernelCmdlines
  current : ∀ c, s.trans.current = some c → c < s.table.nextSfile
  last : ∀ l, s.trans.last = some l → l < s.table.nextSfile
  anon : s.trans.inKernel = 0 → s.trans.cookie ≠ noCookie → s.trans.anon = none
  image : s.trans.inKernel = 0 → s.trans.cookie ≠ noCookie → ∀ c, s.trans.current = some c →
    (s.memory.sfiles c).key o.toOptions = s.trans.key o.toOptions none

/-! ### A lookup -/

/-- The memory of older sfiles is left alone by a lookup. -/
theorem Stored.setFound_sfiles {cmd : Cmdline} (h : Stored s)
    (hfind : sfileFind opts anons t ks cmd s.table = some found) {addr : Nat} (haddr : addr < s.table.nextSfile) :
    (s.setFound found).memory.sfiles addr = s.memory.sfiles addr := by
  show ((found.2.at addr).map Sfile.toSfileFields).getD (s.memory.sfiles addr) = s.memory.sfiles addr
  have hset := h.setFound hfind
  cases hat : found.2.at addr with
  | none => rfl
  | some sf =>
    have hsf : sf.addr = addr := of_decide_eq_true (List.find?_some (p := fun sf : Sfile => decide (sf.addr = addr)) hat)
    have hmem : sf.core ∈ found.2.cores := List.mem_map_of_mem (List.mem_of_find?_eq_some hat)
    rcases sfileFind_cores hfind with ⟨hcores, -⟩ | ⟨⟨fields, hcores⟩, -⟩
    · rw [hcores] at hmem
      have hsame := h.memory _ hmem
      rw [← hsf]
      exact hsame.symm
    · rw [hcores] at hmem
      rcases List.mem_cons.mp hmem with hnew | hold
      · have hnext : sf.addr = s.table.nextSfile := congrArg Prod.fst hnew
        omega
      · have hsame := h.memory _ hold
        rw [← hsf]
        exact hsame.symm

/-- The sfile that a lookup leads to. -/
theorem Sound.found_key (h : Sound o sur s)
    (hfind : sfileFind o.toOptions s.anons.anons s.trans s.images (sur.cmdline s.trans.tgid) s.table = some found) :
    (s.setFound found).currentSfile.map (SfileFields.key o.toOptions) = contextKey o.toOptions sur s.images s.trans := by
  have hset := h.stored.setFound hfind
  obtain ⟨result, tbl⟩ := found
  have hheld : ∀ sf ∈ tbl.hashes, (s.setFound (result, tbl)).memory.sfiles sf.addr = sf.toSfileFields :=
    fun sf hsf => hset.memory sf.core (List.mem_map_of_mem hsf)
  obtain ⟨cmdlines, heq⟩ := sfileFind_eq o.toOptions s.anons.anons s.trans s.images (sur.cmdline s.trans.tgid) s.table
  rw [heq, discards_noted h.notes] at hfind
  rw [contextKey]
  cases hlost : discards s.images [] s.trans (sur.cmdline s.trans.tgid) with
  | true =>
    rw [hlost, if_pos rfl] at hfind
    cases hfind
    rfl
  | false =>
    rw [hlost, if_neg Bool.false_ne_true] at hfind
    rw [if_neg Bool.false_ne_true]
    obtain ⟨hash, -, ⟨sf, hsf, -, hkey, rfl, rfl⟩ | ⟨-, rfl, rfl⟩⟩ := findSfile_cases hfind
    · exact congrArg some ((congrArg (SfileFields.key o.toOptions) (hheld sf hsf)).trans hkey)
    · have hkey : (createSfile o.toOptions s.trans s.table.nextSfile hash (locate s.images s.trans)).key o.toOptions =
          s.trans.key o.toOptions ((locate s.images s.trans).map Prod.fst) :=
        createSfile_key h.offset (locate_of_not_discards hlost)
      exact congrArg some ((congrArg (SfileFields.key o.toOptions) (hheld _ List.mem_cons_self)).trans hkey)

/-- What a lookup leads to is filed as it should be. -/
theorem Sound.setFound (h : Sound o sur s)
    (hfind : sfileFind o.toOptions s.anons.anons s.trans s.images (sur.cmdline s.trans.tgid) s.table = some found) :
    Sound o sur (s.setFound found) := by
  have hset := h.stored.setFound hfind
  have hkey := h.found_key hfind
  have hold : ∀ addr < s.table.nextSfile, (s.setFound found).memory.sfiles addr = s.memory.sfiles addr :=
    fun addr haddr => h.stored.setFound_sfiles hfind haddr
  have hnext : s.table.nextSfile ≤ (s.setFound found).table.nextSfile := by
    rcases sfileFind_cores hfind with ⟨-, hsame⟩ | ⟨-, hone⟩
    · exact hsame.ge
    · exact hone ▸ Nat.le_succ _
  have hfiled : ∀ addr < (s.setFound found).table.nextSfile, ¬addr < s.table.nextSfile →
      ((s.setFound found).memory.sfiles addr).ignored =
          ((s.setFound found).memory.sfiles addr).isIgnored o.toOptions s.memory.images ∧
        ∀ k, ((s.setFound found).memory.sfiles addr).kernel = some k → k < s.nextImage := by
    intro addr haddr hnew
    obtain ⟨result, tbl⟩ := found
    obtain ⟨cmdlines, heq⟩ := sfileFind_eq o.toOptions s.anons.anons s.trans s.images (sur.cmdline s.trans.tgid) s.table
    rw [heq] at hfind
    split_ifs at hfind
    · cases hfind
      exact (hnew haddr).elim
    · obtain ⟨hash, -, ⟨sf, -, -, -, -, rfl⟩ | ⟨-, rfl, rfl⟩⟩ := findSfile_cases hfind
      · exact (hnew haddr).elim
      · have haddr : addr < s.table.nextSfile + 1 := haddr
        obtain rfl : addr = s.table.nextSfile := by omega
        have hfields := hset.memory (createSfile o.toOptions s.trans s.table.nextSfile hash
          (locate s.images s.trans)).core List.mem_cons_self
        have hplace : ∀ k, locate s.images s.trans = some k → s.memory.images k.1 = k.2 :=
          fun k hk => (h.images k (locate_some hk).2).1
        have hignored := createSfile_isIgnored o.toOptions s.table.nextSfile hash h.offset hplace
        refine ⟨(congrArg SfileFields.ignored hfields).trans
          (hignored.trans (congrArg (SfileFields.isIgnored o.toOptions s.memory.images) hfields).symm), fun k hk => ?_⟩
        have hk : (locate s.images s.trans).map Prod.fst = some k := (congrArg SfileFields.kernel hfields).symm.trans hk
        obtain ⟨image, himage, rfl⟩ := Option.map_eq_some_iff.mp hk
        exact (h.images image (locate_some himage).2).2
  refine ⟨hset, h.offset, h.images, fun addr haddr => ?_, sfileFind_notes h.notes hfind, fun c hc => ?_,
    fun l hl => Nat.lt_of_lt_of_le (h.last l hl) hnext, h.anon, fun huser hcookie c hc => ?_⟩
  · by_cases hlt : addr < s.table.nextSfile
    · rw [hold addr hlt]
      exact h.filed addr hlt
    · exact hfiled addr haddr hlt
  · have hc : found.1.sfile = some c := hc
    rcases sfileFind_found hfind with ⟨hsame, hlost | ⟨sf, hsf, hhit, -⟩⟩ | ⟨hash, hnew, hhashes⟩
    · rw [hlost] at hc
      cases hc
    · rw [hhit] at hc
      cases hc
      exact Nat.lt_of_lt_of_le (h.stored.fresh sf.core (List.mem_map_of_mem hsf)) hnext
    · rw [hnew] at hc
      cases hc
      exact hset.fresh (createSfile o.toOptions s.trans s.table.nextSfile hash (locate s.images s.trans)).core
        (by
          show _ ∈ found.2.cores
          rw [SfileTable.cores, hhashes]
          exact List.mem_cons_self)
  · have huser : s.trans.inKernel = 0 := huser
    have hlocate : locate s.images s.trans = none := if_neg (not_not.mpr huser)
    rw [DaemonState.currentSfile, hc, Option.map_some, Option.map_some, contextKey, hlocate] at hkey
    split_ifs at hkey
    exact Option.some_inj.mp hkey

/-- What is known stays known when sfiles go and the transient changes as it should. -/
theorem Sound.mono (h : Sound o sur s) (hthin : Thinned s.table s'.table)
    (hnotes : s'.table.kernelCmdlines = s.table.kernelCmdlines) (hsfiles : s'.memory.sfiles = s.memory.sfiles)
    (hmemory : s'.memory.images = s.memory.images) (himages : s'.images = s.images) (hnext : s'.nextImage = s.nextImage)
    (hoffset : s'.trans.embeddedOffset = s.trans.embeddedOffset)
    (hcurrent : ∀ c, s'.trans.current = some c → c < s.table.nextSfile)
    (hlast : ∀ l, s'.trans.last = some l → l < s.table.nextSfile)
    (hmode : s'.trans.inKernel = 0 → s'.trans.cookie ≠ noCookie → s'.trans.anon = none ∧
      ∀ c, s'.trans.current = some c → (s.memory.sfiles c).key o.toOptions = s'.trans.key o.toOptions none) :
    Sound o sur s' where
  stored := h.stored.thinned hthin hsfiles
  offset := hoffset.trans h.offset
  images := by
    rw [himages, hmemory, hnext]
    exact h.images
  filed := by
    rw [hthin.next, hsfiles, hmemory, hnext]
    exact h.filed
  notes := by
    rw [hnotes]
    exact h.notes
  current := by
    rw [hthin.next]
    exact hcurrent
  last := by
    rw [hthin.next]
    exact hlast
  anon := fun huser hcookie => (hmode huser hcookie).1
  image := by
    rw [hsfiles]
    exact fun huser hcookie => (hmode huser hcookie).2

theorem Sound.mode (h : Sound o sur s) : s.trans.inKernel = 0 → s.trans.cookie ≠ noCookie → s.trans.anon = none ∧
    ∀ c, s.trans.current = some c → (s.memory.sfiles c).key o.toOptions = s.trans.key o.toOptions none :=
  fun huser hcookie => ⟨h.anon huser hcookie, h.image huser hcookie⟩

theorem Sound.clearTransCurrent (h : Sound o sur s) : Sound o sur s.clearTransCurrent :=
  h.mono (.refl _) rfl rfl rfl rfl rfl rfl (fun c hc => (by cases hc)) h.last
    fun _ _ => ⟨rfl, fun c hc => (by cases hc)⟩

theorem Sound.clearTransLast (h : Sound o sur s) : Sound o sur s.clearTransLast :=
  h.mono (.refl _) rfl rfl rfl rfl rfl rfl h.current (fun l hl => (by cases hl)) h.mode

theorem Sound.anonStep (h : Sound o sur s) (hstep : AnonStep s s') : Sound o sur s' := by
  cases hstep with
  | free a =>
    have hclear : Sound o sur (if s.trans.lastAnon = some a then s.clearTransLast else s) := by
      split_ifs
      · exact h.clearTransLast
      · exact h
    exact hclear.mono (thinned_forEach _ _) rfl rfl rfl rfl rfl rfl hclear.current hclear.last hclear.mode
  | alloc m => exact h.mono (.refl _) rfl rfl rfl rfl rfl rfl h.current h.last h.mode
  | read => exact h.mono (.refl _) rfl rfl rfl rfl rfl rfl h.current h.last h.mode

theorem Sound.anonSteps (h : Sound o sur s) (hsteps : AnonSteps s s') : Sound o sur s' := by
  induction hsteps with
  | refl => exact h
  | tail _ hstep ih => exact ih.anonStep hstep

/-- A mapping is cached for a process without cookie. -/
theorem Sound.setAnon {found : Option Nat} (h : Sound o sur s) (hcookie : s.trans.cookie = noCookie) :
    Sound o sur (setAnon (found, s)) :=
  h.mono (.refl _) rfl rfl rfl rfl rfl rfl h.current h.last fun _ hsome => (hsome hcookie).elim

theorem Sound.foundAnon (h : Sound o sur s) (a : Nat) : Sound o sur (s.foundAnon a) :=
  h.mono (.refl _) rfl rfl rfl rfl rfl rfl h.current h.last h.mode

theorem Sound.findAnon (h : Sound o sur s) : Sound o sur (s.dropCached.findAnon sur) := by
  rcases findAnon_cases s sur with ⟨-, hfind⟩ | ⟨-, -, hfind⟩ | ⟨-, hcookie, hfind⟩
  · rw [hfind]
    exact h.clearTransCurrent
  · rw [hfind]
    exact h
  · rw [hfind]
    rcases findAnonMapping_cases s sur with ⟨a, -, -, hmapping⟩ | ⟨-, a, -, hmapping⟩ |
        ⟨-, -, s', hsteps, -, ⟨a, -, hmapping⟩ | ⟨-, hmapping⟩⟩
    · rw [hmapping]
      exact h.setAnon hcookie
    · rw [hmapping]
      exact (h.foundAnon a).setAnon hcookie
    all_goals
      have hsame : SameButLast s.clearTransCurrent.trans s'.trans := hsteps.trans_eq
      have hsound := h.clearTransCurrent.anonSteps hsteps
      rw [hmapping]
    · exact (hsound.foundAnon a).setAnon (hsame.cookie.trans hcookie)
    · exact hsound.setAnon (hsame.cookie.trans hcookie)

theorem Sound.findContext (h : Sound o sur s) (hcontext : s.findContext o.toOptions sur = some s₁) : Sound o sur s₁ := by
  rcases findCurrent_cases hcontext with ⟨-, rfl⟩ | ⟨-, found, hfind, rfl⟩
  · exact h.findAnon
  · exact h.findAnon.setFound hfind

/-- What the logging of a sample leaves alone beside what `Stays` says. -/
theorem LogStep.reads (h : LogStep opts sur s s') : s'.table.kernelCmdlines = s.table.kernelCmdlines ∧
    s'.mapsRead = s.mapsRead ∧ s'.modulesRead = s.modulesRead := by
  cases h
  all_goals exact ⟨rfl, rfl, rfl⟩

theorem LogSteps.reads (h : LogSteps opts sur s s') : s'.table.kernelCmdlines = s.table.kernelCmdlines ∧
    s'.mapsRead = s.mapsRead ∧ s'.modulesRead = s.modulesRead := by
  induction h with
  | refl => exact ⟨rfl, rfl, rfl⟩
  | tail _ hstep ih =>
    obtain ⟨hnotes, hmaps, hmodules⟩ := hstep.reads
    exact ⟨hnotes.trans ih.1, hmaps.trans ih.2.1, hmodules.trans ih.2.2⟩

theorem Sound.logSteps (h : Sound o sur s) (hsteps : LogSteps opts sur s s') : Sound o sur s' := by
  obtain ⟨htrans, hmemory, -, himages, hnext, hthin, -⟩ := LogSteps.stays hsteps
  apply h.mono hthin (LogSteps.reads hsteps).1 (by rw [hmemory]) (by rw [hmemory]) himages hnext
  all_goals rw [htrans]
  · exact h.current
  · exact h.last
  · exact h.mode

theorem Sound.finishSample (h : Sound o sur s) : Sound o sur s.finishSample := by
  unfold DaemonState.finishSample
  dsimp only
  split
  all_goals exact h.mono (.refl _) rfl rfl rfl rfl rfl rfl h.current h.current h.mode

/-- A new module gets an address that no sfile knows. -/
theorem Sound.opdCreateModule (h : Sound o sur s) (image : KernelImage) : Sound o sur (s.opdCreateModule image) where
  stored := ⟨h.stored.memory, h.stored.addrs, h.stored.fresh⟩
  offset := h.offset
  images := by
    have hold : ∀ k ∈ s.images.all, (if k.1 = s.nextImage then image else s.memory.images k.1) = k.2 ∧
        k.1 < s.nextImage + 1 := by
      intro k hk
      obtain ⟨hsame, hlt⟩ := h.images k hk
      rw [if_neg (Nat.ne_of_lt hlt)]
      exact ⟨hsame, Nat.lt_succ_of_lt hlt⟩
    intro k hk
    rcases List.mem_cons.mp hk with rfl | hk
    · exact hold _ List.mem_cons_self
    rcases List.mem_cons.mp hk with rfl | hk
    · exact hold _ (List.mem_cons_of_mem _ List.mem_cons_self)
    rcases List.mem_cons.mp hk with rfl | hk
    · exact ⟨if_pos rfl, Nat.lt_succ_self _⟩
    · exact hold k (List.mem_cons_of_mem _ (List.mem_cons_of_mem _ hk))
  filed := by
    intro addr haddr
    obtain ⟨hignored, hkernel⟩ := h.filed addr haddr
    refine ⟨hignored.trans ?_, fun k hk => Nat.lt_succ_of_lt (hkernel k hk)⟩
    have hname : ((s.memory.sfiles addr).kernel.map fun k => (s.memory.images k).name) =
        (s.memory.sfiles addr).kernel.map fun k => ((s.opdCreateModule image).memory.images k).name := by
      cases hk : (s.memory.sfiles addr).kernel with
      | none => rfl
      | some k =>
        have hother : (s.opdCreateModule image).memory.images k = s.memory.images k :=
          if_neg (Nat.ne_of_lt (hkernel k hk))
        rw [Option.map_some, Option.map_some, hother]
    rw [SfileFields.isIgnored, hname]
    rfl
  notes := h.notes
  current := h.current
  last := h.last
  anon := h.anon
  image := h.image

theorem Sound.opdRereadModuleInfo (h : Sound o sur s) : Sound o sur (s.opdRereadModuleInfo sur) := by
  rw [DaemonState.opdRereadModuleInfo]
  split_ifs
  · exact h
  · have hclear : Sound o sur { s.opdClearModules with modulesRead := s.modulesRead + 1 } := by
      have hthin : Thinned s.table s.opdClearModules.table := thinned_forEach _ _
      refine ⟨h.stored.thinned hthin rfl, h.offset, fun k hk => ?_, h.filed, h.notes, h.current, h.last, h.anon, h.image⟩
      rcases List.mem_cons.mp hk with rfl | hk
      · exact h.images _ List.mem_cons_self
      rcases List.mem_cons.mp hk with rfl | hk
      · exact h.images _ (List.mem_cons_of_mem _ List.mem_cons_self)
      · cases hk
    generalize { s.opdClearModules with modulesRead := s.modulesRead + 1 } = s₁ at hclear
    induction sur.modules s.modulesRead generalizing s₁ with
    | nil => exact hclear
    | cons image images ih => exact ih _ (hclear.opdCreateModule image)

/-- What is known of the daemon stays known in every run. -/
theorem Sound.step (h : Sound o sur s) (hstep : ItemStep o sur s buffer s') : Sound o sur s' := by
  cases hstep with
  | counted => exact h.mono (.refl _) rfl rfl rfl rfl rfl rfl h.current h.last h.mode
  | switched t stats hcurrent hanon hlast hoffset =>
    refine h.mono (.refl _) rfl rfl rfl rfl rfl hoffset ?_ ?_ ?_
    · intro c hc
      have hc : t.current = some c := hc
      rw [hcurrent] at hc
      cases hc
    · intro l hl
      have hl : t.last = some l := hl
      rcases hlast with ⟨hsame, -⟩ | hnone
      · exact h.last l (hsame ▸ hl)
      · rw [hnone] at hl
        cases hl
    · refine fun _ _ => ⟨hanon, fun c hc => ?_⟩
      have hc : t.current = some c := hc
      rw [hcurrent] at hc
      cases hc
  | modules => exact h.opdRereadModuleInfo.clearTransCurrent.clearTransLast
  | trace => exact h.mono (.refl _) rfl rfl rfl rfl rfl rfl h.current h.last h.mode
  | xen =>
    exact h.mono (.refl _) rfl rfl rfl rfl rfl rfl (fun c hc => (by cases hc)) h.last fun huser => (by cases huser)
  | @sample s₀ s₁ s₂ hlooks hcontext hlog =>
    obtain ⟨pc, event, inKernel, stats, samples, hkernel, rfl⟩ := hlooks.begins
    have hbegin : Sound o sur (s.beginAs pc event inKernel stats samples) := by
      refine h.mono (.refl _) rfl rfl rfl rfl rfl rfl h.current h.last ?_
      rcases hkernel with rfl | rfl
      · exact h.mode
      · exact fun huser => (by cases huser)
    exact ((hbegin.findContext hcontext).logSteps hlog).finishSample

/-! ### Every sample gets a context -/

theorem anonMatch_live (h : s.anonMatch a = true) : (s.anons.anons a).isSome = true := by
  obtain ⟨m, hm, -⟩ := anonMatch_matches h
  rw [hm]
  rfl

theorem Sound.findAnon_live (h : Sound o sur s) (ha : (s.dropCached.findAnon sur).trans.anon = some a) :
    ((s.dropCached.findAnon sur).anons.anons a).isSome = true := by
  rcases findAnon_cases s sur with ⟨-, hfind⟩ | ⟨huser, hcookie, hfind⟩ | ⟨-, -, hfind⟩
  · rw [hfind] at ha
    cases ha
  · rw [hfind, h.anon huser hcookie] at ha
    cases ha
  · rw [hfind] at ha ⊢
    rcases findAnonMapping_cases s sur with ⟨b, -, hmatch, hmapping⟩ | ⟨-, b, hlook, hmapping⟩ |
        ⟨-, -, s', -, -, ⟨b, hlook, hmapping⟩ | ⟨-, hmapping⟩⟩
    all_goals
      rw [hmapping] at ha ⊢
      cases ha
    · exact anonMatch_live hmatch
    · have hlive := lookUpAnon_live hlook
      exact hlive
    · have hlive := lookUpAnon_live hlook
      exact hlive

theorem Sound.findContext_isSome (h : Sound o sur s) : ∃ s₁, s.findContext o.toOptions sur = some s₁ := by
  rw [DaemonState.findContext, findCurrent]
  split_ifs
  · exact ⟨_, rfl⟩
  · obtain ⟨result, tbl, hfind⟩ := sfileFind_isSome (t := (s.dropCached.findAnon sur).trans) o.toOptions
      (s.dropCached.findAnon sur).images (sur.cmdline (s.dropCached.findAnon sur).trans.tgid)
      (s.dropCached.findAnon sur).table fun a ha => h.findAnon_live ha
    rw [hfind]
    exact ⟨_, rfl⟩

end DaemonState

end Oprofile.Daemon
