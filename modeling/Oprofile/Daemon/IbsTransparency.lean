import Oprofile.Daemon.PrivilegeContext

/-! Ordinary samples among records of IBS. -/
namespace Oprofile.Daemon
namespace DaemonState

variable {o : Options} {sur : Surroundings} {f f' r r' s s' f₁ r₁ : DaemonState} {a : Nat}

def currentKey (o : Options) (s : DaemonState) : Option SfileKey := s.currentSfile.map (SfileFields.key o)

def lastKey (o : Options) (s : DaemonState) : Option SfileKey := s.lastSfile.map (SfileFields.key o)

/-- Whether the sfile of the sample before is ignored. -/
def ignoredLast (s : DaemonState) : Bool := s.lastSfile.any SfileFields.ignored

/-- What has been logged for ordinary samples: the sfile, for an arc also that of the sample before, and the event. -/
def attributed (o : Options) (s : DaemonState) : List (SfileKey × Option SfileKey × UInt64) :=
  (s.logged.filter fun entry => !entry.ext).map fun entry =>
    (entry.sfile.key o, entry.last.map (SfileFields.key o), entry.event)

/-- What records set. -/
structure SameRecords (t t' : Transient) : Prop where
  tracing : t'.tracing = t.tracing
  cookie : t'.cookie = t.cookie
  appCookie : t'.appCookie = t.appCookie
  inKernel : t'.inKernel = t.inKernel
  cpu : t'.cpu = t.cpu
  tid : t'.tid = t.tid
  tgid : t'.tgid = t.tgid

/-- The run with the records of IBS and the run without them, between items. -/
structure Beside (o : Options) (f r : DaemonState) : Prop where
  records : SameRecords f.trans r.trans
  images : r.images = f.images
  nextImage : r.nextImage = f.nextImage
  modulesRead : r.modulesRead = f.modulesRead
  memory : r.memory.images = f.memory.images
  anons : r.anons = f.anons
  mapsRead : r.mapsRead = f.mapsRead
  anon : f.trans.inKernel = 0 → r.trans.anon = f.trans.anon
  current : f.trans.inKernel = 0 → f.trans.cookie = noCookie → r.currentKey o = f.currentKey o
  ignored : r.ignoredLast = f.ignoredLast
  lastAnon : f.ignoredLast = true → r.trans.lastAnon = f.trans.lastAnon
  trace : f.trans.tracing = .on →
    r.lastKey o = f.lastKey o ∧ r.trans.lastAnon = f.trans.lastAnon ∧ r.trans.event = f.trans.event
  logged : r.attributed o = f.attributed o

theorem Beside.refl (s : DaemonState) : Beside o s s :=
  ⟨⟨rfl, rfl, rfl, rfl, rfl, rfl, rfl⟩, rfl, rfl, rfl, rfl, rfl, rfl, fun _ => rfl, fun _ _ => rfl, rfl, fun _ => rfl,
    fun _ => ⟨rfl, rfl, rfl⟩, rfl⟩

/-! ### Anonymous mappings -/

theorem Beside.clearTransCurrent (h : Beside o f r) : Beside o f.clearTransCurrent r.clearTransCurrent :=
  { h with
    records := ⟨h.records.tracing, h.records.cookie, h.records.appCookie, h.records.inKernel, h.records.cpu,
      h.records.tid, h.records.tgid⟩
    anon := fun _ => rfl
    current := fun _ _ => rfl }

theorem Beside.clearTransLast (h : Beside o f r) : Beside o f.clearTransLast r.clearTransLast :=
  { h with
    records := ⟨h.records.tracing, h.records.cookie, h.records.appCookie, h.records.inKernel, h.records.cpu,
      h.records.tid, h.records.tgid⟩
    ignored := rfl
    lastAnon := fun _ => rfl
    trace := fun htrace => ⟨rfl, rfl, (h.trace htrace).2.2⟩ }

/-- When it makes no difference, only one of the two clears `trans->last`. -/
theorem Beside.clearTransLast_left (h : Beside o f r) (hignored : f.ignoredLast = false) (htrace : f.trans.tracing ≠ .on) :
    Beside o f.clearTransLast r :=
  { h with
    records := ⟨h.records.tracing, h.records.cookie, h.records.appCookie, h.records.inKernel, h.records.cpu,
      h.records.tid, h.records.tgid⟩
    ignored := h.ignored.trans hignored
    lastAnon := fun hsome => (by cases hsome)
    trace := fun hon => (htrace hon).elim }

theorem Beside.clearTransLast_right (h : Beside o f r) (hignored : f.ignoredLast = false)
    (htrace : f.trans.tracing ≠ .on) : Beside o f r.clearTransLast :=
  { h with
    records := ⟨h.records.tracing, h.records.cookie, h.records.appCookie, h.records.inKernel, h.records.cpu,
      h.records.tid, h.records.tgid⟩
    ignored := hignored.symm
    lastAnon := fun hsome => (by rw [hignored] at hsome; cases hsome)
    trace := fun hon => (htrace hon).elim }

theorem Beside.freeAnon (h : Beside o f r) (a : Nat) : Beside o (f.freeAnon a) (r.freeAnon a) := by
  have hclear : Beside o (if f.trans.lastAnon = some a then f.clearTransLast else f)
      (if r.trans.lastAnon = some a then r.clearTransLast else r) := by
    have hdiffer : f.trans.lastAnon ≠ r.trans.lastAnon → f.ignoredLast = false ∧ f.trans.tracing ≠ .on := by
      intro hne
      refine ⟨?_, fun hon => hne (h.trace hon).2.1.symm⟩
      cases hignored : f.ignoredLast with
      | false => rfl
      | true => exact (hne (h.lastAnon hignored).symm).elim
    split_ifs with hf hr hr
    · exact h.clearTransLast
    · obtain ⟨hignored, htrace⟩ := hdiffer fun heq => hr (heq ▸ hf)
      exact h.clearTransLast_left hignored htrace
    · obtain ⟨hignored, htrace⟩ := hdiffer fun heq => hf (heq.symm ▸ hr)
      exact h.clearTransLast_right hignored htrace
    · exact h
  rw [DaemonState.freeAnon, DaemonState.freeAnon]
  generalize (if f.trans.lastAnon = some a then f.clearTransLast else f) = f₁ at hclear
  generalize (if r.trans.lastAnon = some a then r.clearTransLast else r) = r₁ at hclear
  exact { hclear with anons := congrArg (AnonMaps.remove · a) hclear.anons }

theorem Beside.allocAnon (h : Beside o f r) (m : AnonMapping) : Beside o (f.allocAnon m) (r.allocAnon m) :=
  { h with anons := congrArg (AnonMaps.insert · m) h.anons }

/-- Both runs, while neither has a cached mapping. -/
def BesideFree (o : Options) (f r : DaemonState) : Prop := Beside o f r ∧ f.trans.anon = none ∧ r.trans.anon = none

theorem besideFree_foldl {α : Type} {g : DaemonState → α → DaemonState}
    (hg : ∀ f r x, BesideFree o f r → BesideFree o (g f x) (g r x)) (xs : List α) (h : BesideFree o f r) :
    BesideFree o (xs.foldl g f) (xs.foldl g r) := by
  induction xs generalizing f r with
  | nil => exact h
  | cons x xs ih => exact ih (hg f r x h)

theorem BesideFree.freeAnon (h : BesideFree o f r) (a : Nat) : BesideFree o (f.freeAnon a) (r.freeAnon a) :=
  ⟨h.1.freeAnon a, (freeAnon_trans f a).anon.trans h.2.1, (freeAnon_trans r a).anon.trans h.2.2⟩

theorem BesideFree.doLru (h : BesideFree o f r) : BesideFree o f.doLru r.doLru := by
  rw [DaemonState.doLru, DaemonState.doLru, h.1.anons]
  apply besideFree_foldl _ _ h
  intro f r a hfree
  rw [if_neg (by simp [hfree.2.1]), if_neg (by simp [hfree.2.2])]
  exact hfree.freeAnon a

theorem Beside.addAnonMapping (h : BesideFree o f r) (start stop : UInt64) (name : SampleNames.Text) :
    BesideFree o (f.addAnonMapping start stop name) (r.addAnonMapping start stop name) := by
  rw [DaemonState.addAnonMapping, DaemonState.addAnonMapping, h.1.records.tgid, h.1.records.appCookie]
  have hone : BesideFree o (f.allocAnon ⟨start, stop, f.trans.tgid, f.trans.appCookie, name⟩)
      (r.allocAnon ⟨start, stop, f.trans.tgid, f.trans.appCookie, name⟩) := ⟨h.1.allocAnon _, h.2⟩
  rw [hone.1.anons]
  split_ifs
  · exact hone.doLru
  · exact hone

theorem BesideFree.getAnonMaps (h : BesideFree o f r) (sur : Surroundings) :
    BesideFree o (f.getAnonMaps sur) (r.getAnonMaps sur) := by
  rw [DaemonState.getAnonMaps, DaemonState.getAnonMaps, h.1.mapsRead, h.1.records.tgid]
  refine besideFree_foldl ?_ _ ⟨{ h.1 with mapsRead := rfl }, h.2⟩
  intro f r line hfree
  rw [getAnonLine, getAnonLine]
  split_ifs
  · exact hfree
  · exact Beside.addAnonMapping hfree ..

theorem Beside.clearAnonMaps (h : Beside o f r) : BesideFree o f.clearAnonMaps r.clearAnonMaps := by
  have hsame : (r.anons.hashes (hashAnon r.trans.tgid r.trans.appCookie)).filter r.ofTask =
      (f.anons.hashes (hashAnon f.trans.tgid f.trans.appCookie)).filter f.ofTask := by
    have htask : r.ofTask = f.ofTask := by
      funext a
      rw [ofTask, ofTask, h.anons, h.records.tgid, h.records.appCookie]
    rw [htask, h.anons, h.records.tgid, h.records.appCookie]
  rw [DaemonState.clearAnonMaps, DaemonState.clearAnonMaps, hsame]
  apply besideFree_foldl _ _ ⟨h.clearTransCurrent, rfl, rfl⟩
  exact fun f r a hfree => hfree.freeAnon a

/-! ### The context of an ordinary sample -/

theorem Beside.setAnon (h : Beside o f r) (found : Option Nat) :
    Beside o (setAnon (found, f)) (DaemonState.setAnon (found, r)) :=
  { h with
    records := ⟨h.records.tracing, h.records.cookie, h.records.appCookie, h.records.inKernel, h.records.cpu,
      h.records.tid, h.records.tgid⟩
    anon := fun _ => rfl }

theorem Beside.foundAnon (h : Beside o f r) (a : Nat) : Beside o (f.foundAnon a) (r.foundAnon a) :=
  { h with
    anons := by
      show r.anons.toFront _ a = f.anons.toFront _ a
      rw [h.anons, h.records.tgid, h.records.appCookie] }

theorem Beside.anonMatch (h : Beside o f r) (hpc : r.trans.pc = f.trans.pc) : r.anonMatch = f.anonMatch := by
  funext a
  rw [DaemonState.anonMatch, DaemonState.anonMatch, h.anons, h.records.tgid, h.records.appCookie, hpc]

theorem Beside.lookUpAnon (h : Beside o f r) (hpc : r.trans.pc = f.trans.pc) : r.lookUpAnon = f.lookUpAnon := by
  rw [DaemonState.lookUpAnon, DaemonState.lookUpAnon, h.anonMatch hpc, h.anons, h.records.tgid, h.records.appCookie]

theorem SameButLast.pc {t t' : Transient} (h : SameButLast t t') : t'.pc = t.pc := by rw [h]

theorem SameButLast.event {t t' : Transient} (h : SameButLast t t') : t'.event = t.event := by rw [h]

/-- The maps are read in both runs. -/
theorem Beside.readAnonMaps (h : Beside o f r) (hpc : r.trans.pc = f.trans.pc) (sur : Surroundings) :
    Beside o (f.clearAnonMaps.getAnonMaps sur) (r.clearAnonMaps.getAnonMaps sur) ∧
      (r.clearAnonMaps.getAnonMaps sur).lookUpAnon = (f.clearAnonMaps.getAnonMaps sur).lookUpAnon := by
  have hread := h.clearAnonMaps.getAnonMaps sur
  have hkeep : ∀ s : DaemonState, (s.clearAnonMaps.getAnonMaps sur).trans.pc = s.trans.pc := by
    intro s
    have hclear := clearAnonMaps_steps s
    have hsteps : AnonSteps s.clearTransCurrent (s.clearAnonMaps.getAnonMaps sur) :=
      hclear.trans (getAnonMaps_steps (hclear.trans_eq.anon.trans rfl) sur)
    exact hsteps.trans_eq.pc
  exact ⟨hread.1, hread.1.lookUpAnon (by rw [hkeep, hkeep, hpc])⟩

theorem Beside.findAnonMapping (h : Beside o f r) (huser : f.trans.inKernel = 0) (hpc : r.trans.pc = f.trans.pc)
    (sur : Surroundings) :
    Beside o (DaemonState.setAnon (f.findAnonMapping sur)) (DaemonState.setAnon (r.findAnonMapping sur)) := by
  rw [DaemonState.findAnonMapping, DaemonState.findAnonMapping, h.anonMatch hpc, h.anon huser, h.lookUpAnon hpc]
  split_ifs
  · exact h.setAnon _
  · cases f.lookUpAnon with
    | some a => exact (h.foundAnon a).setAnon _
    | none =>
      obtain ⟨hread, hlook⟩ := h.readAnonMaps hpc sur
      dsimp only
      rw [hlook]
      cases (f.clearAnonMaps.getAnonMaps sur).lookUpAnon with
      | some a => exact (hread.foundAnon a).setAnon _
      | none => exact hread.setAnon _

/-- Both runs, within one sample. -/
structure Together (o : Options) (f r : DaemonState) : Prop extends Beside o f r where
  pc : r.trans.pc = f.trans.pc
  event : r.trans.event = f.trans.event

theorem findAnon_kept (s : DaemonState) (sur : Surroundings) :
    (s.dropCached.findAnon sur).trans.pc = s.trans.pc ∧ (s.dropCached.findAnon sur).trans.event = s.trans.event ∧
      (s.dropCached.findAnon sur).trans.inKernel = s.trans.inKernel ∧
        (s.dropCached.findAnon sur).trans.cookie = s.trans.cookie := by
  rcases findAnon_cases s sur with ⟨-, hfind⟩ | ⟨-, -, hfind⟩ | ⟨-, -, hfind⟩
  · rw [hfind]
    exact ⟨rfl, rfl, rfl, rfl⟩
  · rw [hfind]
    exact ⟨rfl, rfl, rfl, rfl⟩
  · rw [hfind]
    rcases findAnonMapping_cases s sur with ⟨a, -, -, hmapping⟩ | ⟨-, a, -, hmapping⟩ |
        ⟨-, -, s', hsteps, -, ⟨a, -, hmapping⟩ | ⟨-, hmapping⟩⟩
    · rw [hmapping]
      exact ⟨rfl, rfl, rfl, rfl⟩
    · rw [hmapping]
      exact ⟨rfl, rfl, rfl, rfl⟩
    all_goals
      have hsame : SameButLast s.clearTransCurrent.trans s'.trans := hsteps.trans_eq
      rw [hmapping]
      exact ⟨hsame.pc, hsame.event, hsame.inKernel, hsame.cookie⟩

theorem findAnon_kernel (h : s.trans.inKernel ≠ 0) (sur : Surroundings) :
    s.dropCached.findAnon sur = s.clearTransCurrent := by
  rcases findAnon_cases s sur with ⟨-, hfind⟩ | ⟨huser, -⟩ | ⟨huser, -⟩
  · exact hfind
  · exact (h huser).elim
  · exact (h huser).elim

theorem findAnon_image (huser : s.trans.inKernel = 0) (hcookie : s.trans.cookie ≠ noCookie) (sur : Surroundings) :
    s.dropCached.findAnon sur = s := by
  rcases findAnon_cases s sur with ⟨hkernel, -⟩ | ⟨-, -, hfind⟩ | ⟨-, hnone, -⟩
  · exact (hkernel huser).elim
  · exact hfind
  · exact (hcookie hnone).elim

theorem findAnon_mapping (huser : s.trans.inKernel = 0) (hcookie : s.trans.cookie = noCookie) (sur : Surroundings) :
    s.dropCached.findAnon sur = setAnon (s.findAnonMapping sur) := by
  rcases findAnon_cases s sur with ⟨hkernel, -⟩ | ⟨-, hsome, -⟩ | ⟨-, -, hfind⟩
  · exact (hkernel huser).elim
  · exact (hsome hcookie).elim
  · exact hfind

/-- After the search for the mapping the two transients agree on it. -/
theorem Together.findAnon (h : Together o f r) (sur : Surroundings) :
    Together o (f.dropCached.findAnon sur) (r.dropCached.findAnon sur) := by
  obtain ⟨hpcf, heventf, -, -⟩ := findAnon_kept f sur
  obtain ⟨hpcr, heventr, -, -⟩ := findAnon_kept r sur
  refine ⟨?_, hpcr.trans (h.pc.trans hpcf.symm), heventr.trans (h.event.trans heventf.symm)⟩
  have hmode : r.trans.inKernel = f.trans.inKernel := h.records.inKernel
  have himage : r.trans.cookie = f.trans.cookie := h.records.cookie
  by_cases huser : f.trans.inKernel = 0
  · by_cases hcookie : f.trans.cookie = noCookie
    · rw [findAnon_mapping huser hcookie, findAnon_mapping (hmode.trans huser) (himage.trans hcookie)]
      exact h.toBeside.findAnonMapping huser h.pc sur
    · rw [findAnon_image huser hcookie, findAnon_image (hmode.trans huser) (himage ▸ hcookie)]
      exact h.toBeside
  · rw [findAnon_kernel huser, findAnon_kernel (hmode ▸ huser)]
    exact h.toBeside.clearTransCurrent

/-- What is looked up is the same. -/
theorem contextKey_congr {t t' : Transient} (h : SameRecords t t') (hpc : t'.pc = t.pc) (hanon : t'.anon = t.anon)
    (ks : KernelImages) : contextKey o sur ks t' = contextKey o sur ks t := by
  obtain ⟨tracing, current, last, anon, lastAnon, cookie, app, pc, lastPc, event, inKernel, cpu, tid, tgid, offset⟩ := t
  obtain ⟨tracing', current', last', anon', lastAnon', cookie', app', pc', lastPc', event', inKernel', cpu', tid', tgid',
    offset'⟩ := t'
  obtain ⟨-, hcookie, happ, hkernel, hcpu, htid, htgid⟩ := h
  dsimp only at hcookie happ hkernel hcpu htid htgid hpc hanon
  subst hcookie happ hkernel hcpu htid htgid hpc hanon
  rfl

/-- Both runs, once a sample has its context. -/
structure InContext (o : Options) (f r : DaemonState) : Prop extends Together o f r where
  sameAnon : r.trans.anon = f.trans.anon
  sameKey : r.currentKey o = f.currentKey o

section Runs

variable {o : Setup} {found : Found × SfileTable} {c : Nat}

theorem Sound.setFound_last (h : Sound o sur s)
    (hfind : sfileFind o.toOptions s.anons.anons s.trans s.images (sur.cmdline s.trans.tgid) s.table = some found) :
    (s.setFound found).lastSfile = s.lastSfile := by
  show s.trans.last.map (s.setFound found).memory.sfiles = s.trans.last.map s.memory.sfiles
  cases hlast : s.trans.last with
  | none => rfl
  | some l => rw [Option.map_some, Option.map_some, h.stored.setFound_sfiles hfind (h.last l hlast)]

/-- The sfile that is cached for an image is the one that would be found. -/
theorem Sound.image_key (h : Sound o sur s) (huser : s.trans.inKernel = 0) (hcookie : s.trans.cookie ≠ noCookie)
    (hcurrent : s.trans.current = some c) : s.currentKey o.toOptions = contextKey o.toOptions sur s.images s.trans := by
  have hkept : discards s.images [] s.trans (sur.cmdline s.trans.tgid) = false := by
    rw [discards, if_neg (by omega), if_neg (not_not.mpr huser)]
    simp [hcookie]
  rw [currentKey, currentSfile, hcurrent, contextKey, hkept, if_neg Bool.false_ne_true, locate,
    if_neg (not_not.mpr huser), Option.map_some, Option.map_some, h.image huser hcookie c hcurrent]
  rfl

/-- The sfile of a sample, unless one is cached for a mapping. -/
theorem Sound.findCurrent_key (h : Sound o sur s) (hfind : s.findCurrent o.toOptions sur = some s')
    (hfree : s.trans.current = none ∨ s.trans.inKernel = 0 ∧ s.trans.cookie ≠ noCookie) :
    s'.currentKey o.toOptions = contextKey o.toOptions sur s.images s.trans := by
  rcases findCurrent_cases hfind with ⟨hsome, rfl⟩ | ⟨-, found, hfound, rfl⟩
  · obtain ⟨c, hc⟩ := Option.isSome_iff_exists.mp hsome
    rcases hfree with hnone | ⟨huser, hcookie⟩
    · rw [hnone] at hc
      cases hc
    · exact h.image_key huser hcookie hc
  · exact h.found_key hfound

/-- What the search for the sfile changes. -/
theorem findCurrent_frame (h : Sound o sur s) (hfind : s.findCurrent o.toOptions sur = some s') :
    ∃ current sfiles tbl, s' = { s with
        trans := { s.trans with current := current }
        memory := { s.memory with sfiles := sfiles }
        table := tbl } ∧
      s'.lastSfile = s.lastSfile := by
  rcases findCurrent_cases hfind with ⟨-, rfl⟩ | ⟨-, found, hfound, rfl⟩
  · exact ⟨_, _, _, rfl, rfl⟩
  · exact ⟨_, _, _, rfl, h.setFound_last hfound⟩

/-- Both samples get the same context. -/
theorem Together.findCurrent (h : Together o.toOptions f r) (hf : Sound o sur f) (hr : Sound o sur r)
    (hkernel : f.trans.inKernel ≠ 0 → f.trans.current = none ∧ r.trans.current = none ∧ r.trans.anon = f.trans.anon)
    (hfind : f.findCurrent o.toOptions sur = some f₁) (hfind' : r.findCurrent o.toOptions sur = some r₁) :
    InContext o.toOptions f₁ r₁ := by
  have hanon : r.trans.anon = f.trans.anon := by
    by_cases huser : f.trans.inKernel = 0
    · exact h.anon huser
    · exact (hkernel huser).2.2
  have hlookup : contextKey o.toOptions sur r.images r.trans = contextKey o.toOptions sur f.images f.trans := by
    rw [h.images]
    exact contextKey_congr h.records h.pc hanon f.images
  have hkey : r₁.currentKey o.toOptions = f₁.currentKey o.toOptions := by
    by_cases hmapping : f.trans.inKernel = 0 ∧ f.trans.cookie = noCookie
    · have hsame := h.current hmapping.1 hmapping.2
      rcases findCurrent_cases hfind with ⟨hsome, rfl⟩ | ⟨hnone, found, hfound, rfl⟩
      · rcases findCurrent_cases hfind' with ⟨-, rfl⟩ | ⟨hnone', -⟩
        · exact hsame
        · rw [currentKey, currentKey, currentSfile, currentSfile, hnone'] at hsame
          obtain ⟨c, hc⟩ := Option.isSome_iff_exists.mp hsome
          rw [hc] at hsame
          cases hsame
      · rcases findCurrent_cases hfind' with ⟨hsome', rfl⟩ | ⟨-, found', hfound', rfl⟩
        · rw [currentKey, currentKey, currentSfile, currentSfile, hnone] at hsame
          obtain ⟨c, hc⟩ := Option.isSome_iff_exists.mp hsome'
          rw [hc] at hsame
          cases hsame
        · exact (hr.found_key hfound').trans (hlookup.trans (hf.found_key hfound).symm)
    · have hfree : ∀ s : DaemonState, s.trans.inKernel = f.trans.inKernel → s.trans.cookie = f.trans.cookie →
          (f.trans.inKernel ≠ 0 → s.trans.current = none) →
            s.trans.current = none ∨ s.trans.inKernel = 0 ∧ s.trans.cookie ≠ noCookie := by
        intro s hmode himage hnone
        by_cases huser : f.trans.inKernel = 0
        · exact .inr ⟨hmode.trans huser, fun hcookie => hmapping ⟨huser, himage ▸ hcookie⟩⟩
        · exact .inl (hnone huser)
      rw [hr.findCurrent_key hfind' (hfree r h.records.inKernel h.records.cookie fun hk => (hkernel hk).2.1), hlookup,
        hf.findCurrent_key hfind (hfree f rfl rfl fun hk => (hkernel hk).1)]
  obtain ⟨currentf, sfilesf, tblf, rfl, hlastf⟩ := findCurrent_frame hf hfind
  obtain ⟨currentr, sfilesr, tblr, rfl, hlastr⟩ := findCurrent_frame hr hfind'
  refine ⟨⟨⟨⟨h.records.tracing, h.records.cookie, h.records.appCookie, h.records.inKernel, h.records.cpu, h.records.tid,
    h.records.tgid⟩, h.images, h.nextImage, h.modulesRead, h.memory, h.anons, h.mapsRead, h.anon, fun _ _ => hkey, ?_, ?_,
    ?_, h.logged⟩, h.pc, h.event⟩, hanon, hkey⟩
  · rw [ignoredLast, ignoredLast, hlastf, hlastr]
    exact h.ignored
  · rw [ignoredLast, hlastf]
    exact h.lastAnon
  · rw [lastKey, lastKey, hlastf, hlastr]
    exact h.trace

theorem Together.findContext (h : Together o.toOptions f r) (hf : Sound o sur f) (hr : Sound o sur r) :
    ∃ f₁ r₁, f.findContext o.toOptions sur = some f₁ ∧ r.findContext o.toOptions sur = some r₁ ∧
      InContext o.toOptions f₁ r₁ ∧ Sound o sur f₁ ∧ Sound o sur r₁ := by
  obtain ⟨f₁, hcontext⟩ := hf.findContext_isSome
  obtain ⟨r₁, hcontext'⟩ := hr.findContext_isSome
  refine ⟨f₁, r₁, hcontext, hcontext', ?_, hf.findContext hcontext, hr.findContext hcontext'⟩
  refine (h.findAnon sur).findCurrent hf.findAnon hr.findAnon (fun hkernel => ?_) hcontext hcontext'
  rw [(findAnon_kept f sur).2.2.1] at hkernel
  rw [findAnon_kernel hkernel, findAnon_kernel (h.records.inKernel ▸ hkernel)]
  exact ⟨rfl, rfl, rfl⟩

/-! ### Logging an ordinary sample -/

theorem InContext.logSteps (sur : Surroundings) (h : InContext o.toOptions f r) (hf : LogSteps o.toOptions sur f f')
    (hr : LogSteps o.toOptions sur r r') (hevent : f'.trans.event = f.trans.event) (hevent' : r'.trans.event = r.trans.event)
    (hlogged : r'.attributed o.toOptions = f'.attributed o.toOptions) : InContext o.toOptions f' r' := by
  have hreadf := LogSteps.reads hf
  have hreadr := LogSteps.reads hr
  obtain ⟨htransf, hmemf, hanonsf, himgf, hnextf, -, -⟩ := LogSteps.stays hf
  obtain ⟨htransr, hmemr, hanonsr, himgr, hnextr, -, -⟩ := LogSteps.stays hr
  rw [hevent] at htransf
  rw [hevent'] at htransr
  have hsfilesf : f'.lastSfile = f.lastSfile ∧ f'.currentSfile = f.currentSfile := by
    rw [lastSfile, currentSfile, htransf, hmemf]
    exact ⟨rfl, rfl⟩
  have hsfilesr : r'.lastSfile = r.lastSfile ∧ r'.currentSfile = r.currentSfile := by
    rw [lastSfile, currentSfile, htransr, hmemr]
    exact ⟨rfl, rfl⟩
  refine ⟨⟨⟨?_, ?_, ?_, ?_, ?_, ?_, ?_, ?_, ?_, ?_, ?_, ?_, hlogged⟩, ?_, ?_⟩, ?_, ?_⟩
  · rw [htransf, htransr]
    exact h.records
  · rw [himgf, himgr, h.images]
  · rw [hnextf, hnextr, h.nextImage]
  · rw [hreadf.2.2, hreadr.2.2, h.modulesRead]
  · rw [hmemf, hmemr, h.memory]
  · rw [hanonsf, hanonsr, h.anons]
  · rw [hreadf.2.1, hreadr.2.1, h.mapsRead]
  · rw [htransf, htransr]
    exact h.anon
  · rw [currentKey, currentKey, hsfilesf.2, hsfilesr.2, htransf]
    exact h.current
  · rw [ignoredLast, ignoredLast, hsfilesf.1, hsfilesr.1]
    exact h.ignored
  · rw [ignoredLast, hsfilesf.1, htransf, htransr]
    exact h.lastAnon
  · rw [lastKey, lastKey, hsfilesf.1, hsfilesr.1, htransf, htransr]
    exact h.trace
  · rw [htransf, htransr]
    exact h.pc
  · rw [htransf, htransr]
    exact h.event
  · rw [htransf, htransr]
    exact h.sameAnon
  · rw [currentKey, currentKey, hsfilesf.2, hsfilesr.2]
    exact h.sameKey

/-- Sfiles with the same key are both ignored or both not. -/
theorem Beside.sameIgnored {c c' : Nat} (h : Beside o.toOptions f r) (hf : Sound o sur f) (hr : Sound o sur r)
    (hc : c < f.table.nextSfile) (hc' : c' < r.table.nextSfile)
    (hkey : (r.memory.sfiles c').key o.toOptions = (f.memory.sfiles c).key o.toOptions) :
    (r.memory.sfiles c').ignored = (f.memory.sfiles c).ignored := by
  rw [(hf.filed c hc).1, (hr.filed c' hc').1, h.memory, isIgnored_congr hkey]

theorem InContext.ignores {c c' : Nat} (h : InContext o.toOptions f r) (hf : Sound o sur f) (hr : Sound o sur r)
    (hc : f.trans.current = some c) (hc' : r.trans.current = some c') : r.ignores c' = f.ignores c := by
  have hkey := h.sameKey
  rw [currentKey, currentKey, currentSfile, currentSfile, hc, hc'] at hkey
  have hlast := h.ignored
  rw [ignoredLast, ignoredLast, lastSfile, lastSfile, Option.any_map, Option.any_map] at hlast
  rw [DaemonState.ignores, DaemonState.ignores,
    h.sameIgnored hf hr (hf.current c hc) (hr.current c' hc') (Option.some_inj.mp hkey)]
  exact congrArg _ hlast

theorem attributed_log {entry : LogEntry} (hlogged : s'.logged = s.logged ++ [entry]) :
    s'.attributed o.toOptions = s.attributed o.toOptions ++ if entry.ext then [] else
      [(entry.sfile.key o.toOptions, entry.last.map (SfileFields.key o.toOptions), entry.event)] := by
  rw [attributed, attributed, hlogged, List.filter_append, List.map_append]
  cases hext : entry.ext with
  | true => simp [hext]
  | false => simp [hext]

/-- Both samples are logged, for sfiles with the same key, or both make the daemon abort. -/
theorem InContext.sfileLogSampleCount {c c' : Nat} (h : InContext o.toOptions f r) (hc : f.trans.current = some c)
    (hc' : r.trans.current = some c') :
    (f.sfileLogSampleCount o.toOptions sur false c 1 = none ∧ r.sfileLogSampleCount o.toOptions sur false c' 1 = none) ∨
      ∃ f' r', f.sfileLogSampleCount o.toOptions sur false c 1 = some f' ∧
        r.sfileLogSampleCount o.toOptions sur false c' 1 = some r' ∧ InContext o.toOptions f' r' := by
  have hkey := h.sameKey
  rw [currentKey, currentKey, currentSfile, currentSfile, hc, hc'] at hkey
  have hkey : (r.memory.sfiles c').key o.toOptions = (f.memory.sfiles c).key o.toOptions := Option.some_inj.mp hkey
  have hcounter : r.counterOk o.toOptions false = f.counterOk o.toOptions false := by
    rw [counterOk, counterOk, h.event]
  by_cases htrace : f.trans.tracing = .on
  · obtain ⟨hlast, -, -⟩ := h.trace htrace
    have htrace' : r.trans.tracing = .on := h.records.tracing.trans htrace
    rw [lastKey, lastKey, lastSfile, lastSfile] at hlast
    rw [DaemonState.sfileLogSampleCount, DaemonState.sfileLogSampleCount, if_pos htrace, if_pos htrace', hcounter]
    cases hl : f.trans.last with
    | none =>
      cases hl' : r.trans.last with
      | none => exact .inr ⟨f, r, rfl, rfl, h⟩
      | some l' =>
        rw [hl, hl'] at hlast
        cases hlast
    | some l =>
      cases hl' : r.trans.last with
      | none =>
        rw [hl, hl'] at hlast
        cases hlast
      | some l' =>
        rw [hl, hl'] at hlast
        have hlast : (r.memory.sfiles l').key o.toOptions = (f.memory.sfiles l).key o.toOptions :=
          Option.some_inj.mp hlast
        dsimp only
        split_ifs
        · refine .inr ⟨_, _, rfl, rfl, h.logSteps sur (.single (.arc f _ hc hl)) (.single (.arc r _ hc' hl')) rfl
            rfl ?_⟩
          refine (attributed_log (s := r) rfl).trans (Eq.trans ?_ (attributed_log (s := f) rfl).symm)
          rw [h.logged]
          simp only [Bool.false_eq_true, if_false, Option.map_some, hkey, hlast, h.event]
        · exact .inl ⟨rfl, rfl⟩
  · have htrace' : ¬r.trans.tracing = .on := fun hon => htrace (h.records.tracing ▸ hon)
    rw [DaemonState.sfileLogSampleCount, DaemonState.sfileLogSampleCount, if_neg htrace, if_neg htrace', hcounter]
    split_ifs
    · refine .inr ⟨_, _, rfl, rfl, h.logSteps sur (.single (.sample f _)) (.single (.sample r _)) rfl rfl ?_⟩
      refine (attributed_log (s := r) rfl).trans (Eq.trans ?_ (attributed_log (s := f) rfl).symm)
      rw [h.logged]
      simp only [Bool.false_eq_true, if_false, Option.map_none, hkey, h.event]
    · exact .inl ⟨rfl, rfl⟩

theorem countSample_stats (s : DaemonState) : ∃ stats, s.countSample = { s with stats := stats } := by
  rw [countSample]
  split
  · exact ⟨s.stats, rfl⟩
  · exact ⟨_, rfl⟩

theorem InContext.setStats (h : InContext o.toOptions f r) (x y : DaemonStat → Nat) :
    InContext o.toOptions { f with stats := x } { r with stats := y } :=
  ⟨⟨⟨h.records, h.images, h.nextImage, h.modulesRead, h.memory, h.anons, h.mapsRead, h.anon, h.current, h.ignored,
    h.lastAnon, h.trace, h.logged⟩, h.pc, h.event⟩, h.sameAnon, h.sameKey⟩

theorem Sound.setStats (h : Sound o sur s) (x : DaemonStat → Nat) : Sound o sur { s with stats := x } :=
  h.mono (.refl _) rfl rfl rfl rfl rfl rfl h.current h.last h.mode

theorem currentKey_none (h : r.currentKey o.toOptions = f.currentKey o.toOptions) :
    r.trans.current = none ↔ f.trans.current = none := by
  rw [currentKey, currentKey, currentSfile, currentSfile] at h
  cases hf : f.trans.current with
  | none =>
    rw [hf] at h
    cases hr : r.trans.current with
    | none => simp
    | some c =>
      rw [hr] at h
      cases h
  | some c =>
    rw [hf] at h
    cases hr : r.trans.current with
    | none =>
      rw [hr] at h
      cases h
    | some c' => simp

theorem InContext.logSample (h : InContext o.toOptions f r) (hf : Sound o sur f) (hr : Sound o sur r) :
    (f.logSample o sur = none ∧ r.logSample o sur = none) ∨
      ∃ f' r', f.logSample o sur = some f' ∧ r.logSample o sur = some r' ∧ InContext o.toOptions f' r' := by
  rw [DaemonState.logSample, DaemonState.logSample]
  cases hc : f.trans.current with
  | none =>
    rw [(currentKey_none h.sameKey).mpr hc]
    exact .inr ⟨f, r, rfl, rfl, h⟩
  | some c =>
    cases hc' : r.trans.current with
    | none =>
      rw [(currentKey_none h.sameKey).mp hc'] at hc
      cases hc
    | some c' =>
      obtain ⟨x, hx⟩ := countSample_stats f
      obtain ⟨y, hy⟩ := countSample_stats r
      have hcounted := h.setStats x y
      dsimp only
      rw [hx, hy, hcounted.ignores (hf.setStats x) (hr.setStats y) hc hc']
      split_ifs
      · exact .inr ⟨_, _, rfl, rfl, hcounted⟩
      · exact hcounted.sfileLogSampleCount hc hc'

/-- The sfile of a sample becomes that of the sample before. -/
theorem InContext.finishSample (h : InContext o.toOptions f r) (hf : Sound o sur f) (hr : Sound o sur r) :
    Beside o.toOptions f.finishSample r.finishSample := by
  have hignored : r.currentSfile.any SfileFields.ignored = f.currentSfile.any SfileFields.ignored := by
    have hkey := h.sameKey
    rw [currentKey, currentKey, currentSfile, currentSfile] at hkey
    rw [currentSfile, currentSfile]
    cases hc : f.trans.current with
    | none =>
      rw [(currentKey_none h.sameKey).mpr hc]
      rfl
    | some c =>
      cases hc' : r.trans.current with
      | none =>
        rw [(currentKey_none h.sameKey).mp hc'] at hc
        cases hc
      | some c' =>
        rw [hc, hc'] at hkey
        exact h.sameIgnored hf hr (hf.current c hc) (hr.current c' hc') (Option.some_inj.mp hkey)
  have htracing := h.records.tracing
  rw [DaemonState.finishSample, DaemonState.finishSample, htracing]
  dsimp only
  split_ifs
  all_goals
    refine ⟨⟨?_, h.records.cookie, h.records.appCookie, h.records.inKernel, h.records.cpu, h.records.tid,
      h.records.tgid⟩, h.images, h.nextImage, h.modulesRead, h.memory, h.anons, h.mapsRead, h.anon, fun _ _ => h.sameKey,
      hignored, fun _ => h.sameAnon, fun _ => ⟨h.sameKey, h.sameAnon, h.event⟩, h.logged⟩
  · rfl
  · exact htracing

/-- An ordinary sample is attributed alike in both runs. -/
theorem Beside.sample {pc event : UInt64} (h : Beside o.toOptions f r) (hf : Sound o sur f) (hr : Sound o sur r)
    (hcode : isEscapeCode o pc = false) :
    (f.perform o sur (.sample pc event) = none ∧ r.perform o sur (.sample pc event) = none) ∨
      ∃ f' r', f.perform o sur (.sample pc event) = some f' ∧ r.perform o sur (.sample pc event) = some r' ∧
        Beside o.toOptions f' r' := by
  have hbegin : Together o.toOptions (f.beginSample pc event) (r.beginSample pc event) := by
    refine ⟨⟨⟨h.records.tracing, h.records.cookie, h.records.appCookie, h.records.inKernel, h.records.cpu, h.records.tid,
      h.records.tgid⟩, h.images, h.nextImage, h.modulesRead, h.memory, h.anons, h.mapsRead, h.anon, h.current, h.ignored,
      h.lastAnon, fun hon => ?_, h.logged⟩, rfl, ?_⟩
    · obtain ⟨hlast, hlastAnon, hevent⟩ := h.trace hon
      have hon : f.trans.tracing = .on := hon
      refine ⟨hlast, hlastAnon, ?_⟩
      show (if r.trans.tracing = .on then r.trans.event else event) = if f.trans.tracing = .on then f.trans.event else event
      rw [if_pos hon, if_pos (h.records.tracing.trans hon), hevent]
    · show (if r.trans.tracing = .on then r.trans.event else event) = if f.trans.tracing = .on then f.trans.event else event
      rw [h.records.tracing]
      split_ifs with hon
      · exact (h.trace hon).2.2
      · rfl
  have hbeginf : Sound o sur (f.beginSample pc event) :=
    hf.mono (.refl _) rfl rfl rfl rfl rfl rfl hf.current hf.last hf.mode
  have hbeginr : Sound o sur (r.beginSample pc event) :=
    hr.mono (.refl _) rfl rfl rfl rfl rfl rfl hr.current hr.last hr.mode
  obtain ⟨f₁, r₁, hcontext, hcontext', hin, hf₁, hr₁⟩ := hbegin.findContext hbeginf hbeginr
  rw [perform_sample hcode, perform_sample hcode, hcontext, hcontext', Option.bind_some, Option.bind_some]
  rcases hin.logSample hf₁ hr₁ with ⟨hnone, hnone'⟩ | ⟨f₂, r₂, hlog, hlog', hin₂⟩
  · rw [hnone, hnone']
    exact .inl ⟨rfl, rfl⟩
  · rw [hlog, hlog']
    exact .inr ⟨_, _, rfl, rfl, hin₂.finishSample (hf₁.logSteps (logSample_steps hlog)) (hr₁.logSteps (logSample_steps hlog'))⟩

/-! ### Ordinary records -/

theorem Beside.opdCreateModule (h : Beside o.toOptions f r) (image : KernelImage) :
    Beside o.toOptions (f.opdCreateModule image) (r.opdCreateModule image) :=
  { h with
    images := by
      show { r.images with modules := (r.nextImage, image) :: r.images.modules } = _
      rw [h.images, h.nextImage]
      rfl
    nextImage := congrArg (· + 1) h.nextImage
    memory := by
      show (fun a => if a = r.nextImage then image else r.memory.images a) = _
      rw [h.memory, h.nextImage]
      rfl }

theorem Beside.opdRereadModuleInfo (h : Beside o.toOptions f r) :
    Beside o.toOptions (f.opdRereadModuleInfo sur) (r.opdRereadModuleInfo sur) := by
  have hclear : Beside o.toOptions { f.opdClearModules with modulesRead := f.modulesRead + 1 }
      { r.opdClearModules with modulesRead := r.modulesRead + 1 } :=
    { h with
      images := by
        show { r.images with modules := [] } = _
        rw [h.images]
        rfl
      modulesRead := congrArg (· + 1) h.modulesRead }
  rw [DaemonState.opdRereadModuleInfo, DaemonState.opdRereadModuleInfo, h.images, h.modulesRead]
  split_ifs
  · exact h
  · rw [h.modulesRead] at hclear
    generalize { f.opdClearModules with modulesRead := f.modulesRead + 1 } = f₁ at hclear
    generalize { r.opdClearModules with modulesRead := f.modulesRead + 1 } = r₁ at hclear
    induction sur.modules f.modulesRead generalizing f₁ r₁ with
    | nil => exact hclear
    | cons image images ih => exact ih _ _ (hclear.opdCreateModule image)

/-- An ordinary record or sample does the same in both runs. -/
theorem Beside.perform {record : Record} (h : Beside o.toOptions f r) (hf : Sound o sur f) (hr : Sound o sur r)
    (hordinary : record.ofIbs = false) (hcomplete : record.Complete o) :
    (f.perform o sur record = none ∧ r.perform o sur record = none) ∨
      ∃ f' r', f.perform o sur record = some f' ∧ r.perform o sur record = some r' ∧ Beside o.toOptions f' r' := by
  obtain ⟨htracing, hcookie, happ, hkernel, hcpu, htid, htgid⟩ := h.records
  cases record with
  | sample pc event => exact h.sample hf hr hcomplete
  | ibsFetch => cases hordinary
  | ibsOp => cases hordinary
  | ctxSwitch =>
    right
    rw [DaemonState.perform, DaemonState.perform, Record.encode, processItem_escape, processItem_escape]
    exact ⟨_, _, rfl, rfl, { h with
      records := ⟨htracing, hcookie, rfl, hkernel, hcpu, rfl, rfl⟩
      anon := fun _ => rfl
      current := fun _ _ => rfl }⟩
  | cpuSwitch =>
    right
    rw [DaemonState.perform, DaemonState.perform, Record.encode, processItem_escape, processItem_escape]
    exact ⟨_, _, rfl, rfl, { h with
      records := ⟨htracing, hcookie, happ, hkernel, rfl, htid, htgid⟩
      anon := fun _ => rfl
      current := fun _ _ => rfl }⟩
  | cookieSwitch =>
    right
    rw [DaemonState.perform, DaemonState.perform, Record.encode, processItem_escape, processItem_escape]
    exact ⟨_, _, rfl, rfl, { h with
      records := ⟨htracing, rfl, happ, hkernel, hcpu, htid, htgid⟩
      anon := fun _ => rfl
      current := fun _ _ => rfl }⟩
  | kernelEnter =>
    right
    rw [DaemonState.perform, DaemonState.perform, Record.encode, processItem_escape, processItem_escape]
    exact ⟨_, _, rfl, rfl, { h with
      records := ⟨htracing, hcookie, happ, rfl, hcpu, htid, htgid⟩
      anon := fun _ => rfl
      current := fun _ _ => rfl }⟩
  | userEnter =>
    right
    rw [DaemonState.perform, DaemonState.perform, Record.encode, processItem_escape, processItem_escape]
    have henter : Beside o.toOptions f.codeUserEnter r.codeUserEnter :=
      { h.clearTransLast with
        records := ⟨htracing, hcookie, happ, rfl, hcpu, htid, htgid⟩
        anon := fun _ => rfl
        current := fun _ _ => rfl }
    exact ⟨_, _, rfl, rfl, henter⟩
  | moduleLoaded =>
    right
    rw [DaemonState.perform, DaemonState.perform, Record.encode, processItem_escape, processItem_escape]
    exact ⟨_, _, rfl, rfl, h.opdRereadModuleInfo.clearTransCurrent.clearTransLast⟩
  | traceBegin =>
    right
    rw [DaemonState.perform, DaemonState.perform, Record.encode, processItem_escape, processItem_escape]
    exact ⟨_, _, rfl, rfl, { h with
      records := ⟨rfl, hcookie, happ, hkernel, hcpu, htid, htgid⟩
      trace := fun hon => (by cases hon) }⟩
  | xenEnter =>
    right
    rw [DaemonState.perform, DaemonState.perform, Record.encode, processItem_escape, processItem_escape]
    exact ⟨_, _, rfl, rfl, { h with
      records := ⟨htracing, hcookie, happ, rfl, hcpu, htid, htgid⟩
      anon := fun huser => (by cases huser)
      current := fun huser => (by cases huser) }⟩

end Runs

end DaemonState
end Oprofile.Daemon
