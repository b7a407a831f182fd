import Oprofile.Daemon.LivePointers

/-! Reading the mappings of a process into a cache that they fill up. -/
namespace Oprofile.Daemon
namespace DaemonState

variable {s s' s₁ s₂ : DaemonState} {a b : Nat}

/-! ### Reading -/

/-- What a line is read as. -/
def lineMapping (t : Transient) (line : MapsLine) : AnonMapping :=
  ⟨line.start, line.stop, t.tgid, t.appCookie, (line.name.getD anonName).take 20⟩

/-- A line of `maps` without the name of a file. -/
def Anonymous (line : MapsLine) : Prop := (line.name.getD anonName).head? ≠ some '/'

theorem getAnonLine_room {line : MapsLine} (hname : Anonymous line) (hroom : s.anons.nrLru + 1 < anonLruSize) :
    s.getAnonLine line = s.allocAnon (lineMapping s.trans line) := by
  rw [getAnonLine, if_neg hname, addAnonMapping]
  exact if_neg (Nat.ne_of_lt hroom)

theorem getAnonLine_full {line : MapsLine} (hname : Anonymous line) (hfull : s.anons.nrLru + 1 = anonLruSize) :
    s.getAnonLine line = (s.allocAnon (lineMapping s.trans line)).doLru := by
  rw [getAnonLine, if_neg hname, addAnonMapping]
  exact if_pos hfull

/-- Mappings have been taken, one after the other. -/
structure Filled (s s' : DaemonState) (ms : List AnonMapping) : Prop where
  trans : s'.trans = s.trans
  table : s'.table = s.table
  memory : s'.memory.sfiles = s.memory.sfiles
  images : s'.images = s.images
  logged : s'.logged = s.logged
  next : s'.anons.nextAnon = s.anons.nextAnon + ms.length
  nrLru : s'.anons.nrLru = s.anons.nrLru + ms.length
  lru : s'.anons.lru = s.anons.lru ++ List.range' s.anons.nextAnon ms.length
  old : ∀ i < s.anons.nextAnon, s'.anons.anons i = s.anons.anons i
  new : ∀ i m, ms[i]? = some m → s'.anons.anons (s.anons.nextAnon + i) = some m
  chain : ∀ h i, i ∈ s'.anons.hashes h ↔ i ∈ s.anons.hashes h ∨
    ∃ k m, ms[k]? = some m ∧ i = s.anons.nextAnon + k ∧ h = hashAnon m.tgid m.appCookie

theorem Filled.nil (s : DaemonState) : Filled s s [] :=
  ⟨rfl, rfl, rfl, rfl, rfl, rfl, rfl, (List.append_nil _).symm, fun _ _ => rfl, fun i m h => (by cases h),
    fun h i => ⟨.inl, fun hi => hi.elim id fun ⟨k, m, hk, _⟩ => (by cases hk)⟩⟩

theorem Filled.alloc (m : AnonMapping) {ms : List AnonMapping} (h : Filled s s' ms) :
    Filled s (s'.allocAnon m) (ms ++ [m]) := by
  have hnext : s'.anons.nextAnon = s.anons.nextAnon + ms.length := h.next
  refine ⟨h.trans, h.table, h.memory, h.images, h.logged, ?_, ?_, ?_, fun i hi => ?_, fun i x hx => ?_, fun hash i => ?_⟩
  · simp [allocAnon, AnonMaps.insert, hnext, Nat.add_assoc]
  · simp [allocAnon, AnonMaps.insert, h.nrLru, Nat.add_assoc]
  · simp [allocAnon, AnonMaps.insert, h.lru, hnext, List.range'_1_concat]
  · rw [← h.old i hi]
    exact if_neg (by omega)
  · show (if s.anons.nextAnon + i = s'.anons.nextAnon then some m else s'.anons.anons (s.anons.nextAnon + i)) = some x
    by_cases hlast : i < ms.length
    · rw [List.getElem?_append_left hlast] at hx
      rw [if_neg (by omega)]
      exact h.new i x hx
    · rw [List.getElem?_append_right (Nat.le_of_not_lt hlast)] at hx
      obtain ⟨hsingle, rfl⟩ := List.getElem?_eq_some_iff.mp hx
      simp only [List.length_singleton, Nat.lt_one_iff] at hsingle
      rw [if_pos (by omega)]
      simp
  · have hchain := h.chain hash i
    have hsnoc : (∃ k x, (ms ++ [m])[k]? = some x ∧ i = s.anons.nextAnon + k ∧ hash = hashAnon x.tgid x.appCookie) ↔
        (∃ k x, ms[k]? = some x ∧ i = s.anons.nextAnon + k ∧ hash = hashAnon x.tgid x.appCookie) ∨
          i = s'.anons.nextAnon ∧ hash = hashAnon m.tgid m.appCookie := by
      constructor
      · rintro ⟨k, x, hk, hi, hx⟩
        by_cases hlast : k < ms.length
        · rw [List.getElem?_append_left hlast] at hk
          exact .inl ⟨k, x, hk, hi, hx⟩
        · rw [List.getElem?_append_right (Nat.le_of_not_lt hlast)] at hk
          obtain ⟨hsingle, rfl⟩ := List.getElem?_eq_some_iff.mp hk
          simp only [List.length_singleton, Nat.lt_one_iff] at hsingle
          refine .inr ⟨by omega, ?_⟩
          simpa using hx
      · rintro (⟨k, x, hk, hi, hx⟩ | ⟨hi, hx⟩)
        · refine ⟨k, x, ?_, hi, hx⟩
          rw [List.getElem?_append_left (List.getElem?_eq_some_iff.mp hk).1]
          exact hk
        · exact ⟨ms.length, m, by simp, by omega, hx⟩
    rw [hsnoc, ← or_assoc, ← hchain]
    show i ∈ (if hash = hashAnon m.tgid m.appCookie then s'.anons.hashes hash ++ [s'.anons.nextAnon]
      else s'.anons.hashes hash) ↔ _
    split_ifs with hhash
    · simp [hhash]
    · simp [hhash]

/-- Lines are read while there is room for their mappings. -/
theorem readLines_filled {lines : List MapsLine} (hnames : ∀ line ∈ lines, Anonymous line)
    (hroom : s.anons.nrLru + lines.length < anonLruSize) :
    Filled s (lines.foldl getAnonLine s) (lines.map (lineMapping s.trans)) := by
  induction lines using List.reverseRecOn with
  | nil => exact .nil s
  | append_singleton lines line ih =>
    rw [List.length_append, List.length_singleton] at hroom
    have hbefore := ih (fun l hl => hnames l (List.mem_append_left _ hl)) (by omega)
    have hone : (lines.foldl getAnonLine s).getAnonLine line =
        (lines.foldl getAnonLine s).allocAnon (lineMapping s.trans line) := by
      rw [← hbefore.trans]
      apply getAnonLine_room (hnames line (by simp))
      have hcount := hbefore.nrLru
      rw [List.length_map] at hcount
      omega
    rw [List.foldl_append, List.foldl_cons, List.foldl_nil, hone, List.map_append]
    exact hbefore.alloc _

/-- The last line for which there is room evicts mappings. -/
theorem readLines_full {lines : List MapsLine} {line : MapsLine} (hnames : ∀ l ∈ lines ++ [line], Anonymous l)
    (hfull : s.anons.nrLru + lines.length + 1 = anonLruSize) :
    ∃ s', Filled s s' ((lines ++ [line]).map (lineMapping s.trans)) ∧ (lines ++ [line]).foldl getAnonLine s = s'.doLru := by
  have hbefore := readLines_filled (s := s) (fun l hl => hnames l (List.mem_append_left _ hl))
    (show s.anons.nrLru + lines.length < anonLruSize by omega)
  have hone : (lines.foldl getAnonLine s).getAnonLine line =
      ((lines.foldl getAnonLine s).allocAnon (lineMapping s.trans line)).doLru := by
    rw [← hbefore.trans]
    apply getAnonLine_full (hnames line (by simp))
    have hcount := hbefore.nrLru
    rw [List.length_map] at hcount
    omega
  have hlast := hbefore.alloc (lineMapping s.trans line)
  refine ⟨(lines.foldl getAnonLine s).allocAnon (lineMapping s.trans line), ?_, ?_⟩
  · rw [List.map_append]
    exact hlast
  · rw [List.foldl_append, List.foldl_cons, List.foldl_nil, hone]

/-! ### Eviction -/

/-- Mappings have been freed, none of which the transient knows. -/
structure Evicted (s s' : DaemonState) (dead : List Nat) : Prop where
  trans : s'.trans = s.trans
  memory : s'.memory = s.memory
  images : s'.images = s.images
  next : s'.table.nextSfile = s.table.nextSfile
  mapping : ∀ i ∉ dead, s'.anons.anons i = s.anons.anons i
  chain : ∀ h, ∀ i ∈ s.anons.hashes h, i ∉ dead → i ∈ s'.anons.hashes h
  cores : s'.table.cores.Sublist s.table.cores
  cleared : ∀ x ∈ s'.table.cores, ∀ a ∈ dead, x.2.anon ≠ some a

theorem freeAnon_images (s : DaemonState) (a : Nat) : (s.freeAnon a).images = s.images := by
  rw [freeAnon]
  split_ifs
  · rfl
  · rfl

theorem freeAnon_evicted (h : s.trans.lastAnon ≠ some a) : Evicted s (s.freeAnon a) [a] := by
  have hthin := (AnonStep.free s a).thinned
  have hanons : (s.freeAnon a).anons = s.anons.remove a := freeAnon_anons s a
  refine ⟨?_, freeAnon_memory s a, freeAnon_images s a, hthin.next, fun i hi => ?_, fun hash i hi hout => ?_, hthin.cores,
    fun x hx b hb => ?_⟩
  · rw [freeAnon, if_neg h]
  · rw [hanons]
    exact if_neg (by simpa using hi)
  · rw [hanons]
    exact (List.mem_erase_of_ne (by simpa using hout)).mpr hi
  · obtain rfl := List.mem_singleton.mp hb
    rw [freeAnon_table, SfileTable.cores_forEach] at hx
    obtain ⟨sf, hsf, rfl⟩ := List.mem_map.mp hx
    have halive : sf.anon ≠ some b := by simpa using (List.mem_filter.mp hsf).2
    exact halive

theorem Evicted.append {dead dead' : List Nat} (h : Evicted s s₁ dead) (h' : Evicted s₁ s₂ dead') :
    Evicted s s₂ (dead ++ dead') := by
  refine ⟨h'.trans.trans h.trans, h'.memory.trans h.memory, h'.images.trans h.images, h'.next.trans h.next,
    fun i hi => ?_, fun hash i hi hout => ?_, h'.cores.trans h.cores, fun x hx a ha => ?_⟩
  · rw [List.mem_append, not_or] at hi
    rw [h'.mapping i hi.2, h.mapping i hi.1]
  · rw [List.mem_append, not_or] at hout
    exact h'.chain hash i (h.chain hash i hi hout.1) hout.2
  · rcases List.mem_append.mp ha with hfirst | hsecond
    · exact h.cleared x (h'.cores.subset hx) a hfirst
    · exact h'.cleared x hx a hsecond

theorem doLru_evicted (hanon : s.trans.anon = none) (hlast : ∀ a ∈ s.anons.lru.take (anonLruAmount + 1),
    s.trans.lastAnon ≠ some a) : Evicted s s.doLru (s.anons.lru.take (anonLruAmount + 1)) := by
  rw [doLru]
  generalize s.anons.lru.take (anonLruAmount + 1) = dead at hlast ⊢
  induction dead generalizing s with
  | nil =>
    exact ⟨rfl, rfl, rfl, rfl, fun _ _ => rfl, fun _ _ hi _ => hi, .refl _, fun _ _ _ ha => (by cases ha)⟩
  | cons a dead ih =>
    have hfirst := freeAnon_evicted (hlast a List.mem_cons_self)
    rw [List.foldl_cons, if_neg (by simp [hanon])]
    have hrest := ih (s := s.freeAnon a) (by rw [hfirst.trans]; exact hanon)
      (by rw [hfirst.trans]; exact fun b hb => hlast b (List.mem_cons_of_mem _ hb))
    exact hfirst.append hrest

/-! ### Samples between -/

theorem anonMatch_of_matches {m : AnonMapping} (hm : s.anons.anons a = some m) (hmatch : Matches s.trans m) :
    s.anonMatch a = true := by
  obtain ⟨htgid, happ, hstart, hstop⟩ := hmatch
  rw [anonMatch, hm]
  dsimp only
  rw [if_neg (not_not.mpr htgid.symm), if_neg (not_not.mpr happ.symm), if_neg (UInt64.not_lt.mpr hstart)]
  exact decide_eq_true hstop

theorem find?_only {p : Nat → Bool} {l : List Nat} (ha : a ∈ l) (hp : p a = true) (honly : ∀ i ∈ l, p i = true → i = a) :
    l.find? p = some a := by
  cases hfind : l.find? p with
  | none => exact absurd hp (List.find?_eq_none.mp hfind a ha)
  | some i => rw [honly i (List.mem_of_find?_eq_some hfind) (List.find?_some hfind)]

theorem mem_toFront {x : AnonMaps} {hash : UInt64} (ha : a ∈ x.hashes hash) (h : UInt64) (i : Nat) :
    i ∈ (x.toFront hash a).hashes h ↔ i ∈ x.hashes h := by
  show i ∈ (if h = hash then a :: (x.hashes h).erase a else x.hashes h) ↔ i ∈ x.hashes h
  split_ifs with hhash
  · subst hhash
    by_cases hi : i = a
    · simp [hi, ha]
    · simp [hi, List.mem_erase_of_ne hi]
  · rfl

theorem finishSample_off (h : s.trans.tracing = .off) : s.finishSample = { s with
    trans := { s.trans with last := s.trans.current, lastAnon := s.trans.anon, lastPc := s.trans.pc } } := by
  rw [finishSample, if_neg (by rw [h]; decide)]

theorem countSample_off (h : s.trans.tracing = .off) : ∃ stats, s.countSample = { s with stats := stats } := by
  rw [countSample, if_neg (by rw [h]; decide)]
  exact ⟨_, rfl⟩

/-- Nothing that matters for later samples changes. -/
structure SameBut (s s' : DaemonState) : Prop where
  anons : s'.anons = s.anons
  memory : s'.memory = s.memory
  images : s'.images = s.images
  table : s'.table = s.table

/-- A sample outside call traces that is neither ignored nor evicts anything. -/
theorem logSample_off {o : Setup} {sur : Surroundings} {c : Nat} (hcurrent : s.trans.current = some c)
    (hignored : (s.memory.sfiles c).ignored = false)
    (hlast : ∀ l, s.trans.last = some l → (s.memory.sfiles l).ignored = false) (htracing : s.trans.tracing = .off)
    (hcounter : s.trans.event.toNat < o.opNrCounters) (hevicted : sur.evicted = fun _ _ => false) :
    ∃ s', s.logSample o sur = some s' ∧ SameBut s s' ∧ s'.trans = s.trans := by
  obtain ⟨stats, hcount⟩ := countSample_off htracing
  have hnone : { s with stats := stats }.ignores c = false := by
    show ((s.memory.sfiles c).ignored || s.trans.last.any fun last => (s.memory.sfiles last).ignored) = false
    rw [hignored, Bool.false_or, Option.any_eq_false]
    intro l hl
    simp [hlast l hl]
  have htable : s.table.clear (fun sf => sur.evicted s.logged.length sf && some sf.addr ≠ s.trans.current &&
      some sf.addr ≠ s.trans.last) = s.table := by
    rw [hevicted]
    exact SfileTable.clear_none _
  rw [logSample, hcurrent]
  dsimp only
  rw [hcount, hnone, if_neg Bool.false_ne_true, sfileLogSampleCount]
  rw [if_neg (show ¬s.trans.tracing = .on by rw [htracing]; decide)]
  exact ⟨_, if_pos (decide_eq_true hcounter), ⟨rfl, rfl, rfl, htable⟩, rfl⟩

theorem opdPutSample_off {o : Setup} {sur : Surroundings} {pc event : UInt64} {c : Nat} (rest : Buffer)
    (hcontext : (s.beginSample pc event).findContext o.toOptions sur = some s₁) (hcurrent : s₁.trans.current = some c)
    (hignored : (s₁.memory.sfiles c).ignored = false)
    (hlast : ∀ l, s₁.trans.last = some l → (s₁.memory.sfiles l).ignored = false) (htracing : s₁.trans.tracing = .off)
    (hcounter : s₁.trans.event.toNat < o.opNrCounters) (hevicted : sur.evicted = fun _ _ => false) :
    ∃ s', s.opdPutSample o sur pc (event :: rest) = some (s', rest) ∧ SameBut s₁ s' ∧
      s'.trans = { s₁.trans with last := some c, lastAnon := s₁.trans.anon, lastPc := s₁.trans.pc } := by
  obtain ⟨s₂, hlog, hsame, htrans⟩ := logSample_off hcurrent hignored hlast htracing hcounter hevicted
  have hfinish := finishSample_off (htrans ▸ htracing : s₂.trans.tracing = .off)
  refine ⟨s₂.finishSample, ?_, ?_, ?_⟩
  · rw [opdPutSample, hcontext]
    show (s₁.logSample o sur >>= fun s => some (s.finishSample, rest)) = _
    rw [hlog]
    rfl
  · rw [hfinish]
    exact ⟨hsame.anons, hsame.memory, hsame.images, hsame.table⟩
  · rw [hfinish]
    show ({ s₂.trans with last := s₂.trans.current, lastAnon := s₂.trans.anon, lastPc := s₂.trans.pc } : Transient) = _
    rw [htrans, hcurrent]

/-! ### A run in which the sfile of the sample before is freed -/

/-- A line for no address, one for each of the two mappings that are sampled, and all lines of the two processes. -/
def emptyLine : MapsLine := ⟨0, 0, none⟩

def lowLine : MapsLine := ⟨0x1000, 0x2000, none⟩

def highLine : MapsLine := ⟨0x3000, 0x4000, none⟩

def firstLines : List MapsLine := List.replicate 1024 emptyLine ++ [lowLine, highLine]

def secondLines : List MapsLine := (lowLine :: List.replicate 7164 emptyLine) ++ [emptyLine]

def manyMappings : Surroundings :=
  { plainSurroundings with maps := fun _ tgid => if tgid = 1 then firstLines else secondLines }

def firstSwitch : Buffer :=
  [escapeCode, ctxSwitchCode, 1, 5, 0, 0, 1, escapeCode, cookieSwitchCode, noCookie, escapeCode, userEnterSwitchCode]

def secondSwitch : Buffer := [escapeCode, ctxSwitchCode, 4, 7, 0, 0, 4]

/-- The first process, before its first sample. -/
def atFirst : DaemonState :=
  { (DaemonState.init smallImages).startBuffer with
    trans := { (DaemonState.init smallImages).startBuffer.trans with
      tid := 1, appCookie := 5, tgid := 1, cookie := noCookie, inKernel := 0 } }

theorem firstLines_get (k : Nat) : firstLines[k]? =
    if k < 1024 then some emptyLine else if k = 1024 then some lowLine else if k = 1025 then some highLine else none := by
  rw [firstLines, List.getElem?_append, List.length_replicate, List.getElem?_replicate]
  by_cases hk : k < 1024
  · rw [if_pos hk, if_pos hk, if_pos hk]
  · rw [if_neg hk, if_neg hk]
    by_cases hlow : k = 1024
    · subst hlow
      rfl
    by_cases hhigh : k = 1025
    · subst hhigh
      rfl
    · rw [if_neg hlow, if_neg hhigh, List.getElem?_eq_none]
      simp only [List.length_cons, List.length_nil]
      omega

theorem firstLines_length : firstLines.length = 1026 := by
  rw [firstLines, List.length_append, List.length_replicate]
  rfl

theorem firstLines_anonymous : ∀ line ∈ firstLines, Anonymous line := by
  intro line hline
  rw [firstLines, List.mem_append, List.mem_replicate] at hline
  simp only [List.mem_cons, List.not_mem_nil, or_false] at hline
  rcases hline with ⟨-, rfl⟩ | rfl | rfl
  all_goals exact show anonName.head? ≠ some '/' by decide

theorem secondLines_anonymous : ∀ line ∈ secondLines, Anonymous line := by
  intro line hline
  rw [secondLines, List.mem_append, List.mem_cons, List.mem_replicate] at hline
  simp only [List.mem_cons, List.not_mem_nil, or_false] at hline
  rcases hline with (rfl | ⟨-, rfl⟩) | rfl
  all_goals exact show anonName.head? ≠ some '/' by decide

/-- The first process, between its samples: so far they have all been logged for its lower mapping. -/
structure Sampled (s : DaemonState) (a : Nat) : Prop where
  tracing : s.trans.tracing = .off
  inKernel : s.trans.inKernel = 0
  cookie : s.trans.cookie = noCookie
  tgid : s.trans.tgid = 1
  appCookie : s.trans.appCookie = 5
  embedded : s.trans.embeddedOffset = unusedEmbeddedOffset
  current : s.trans.current = some 0
  last : s.trans.last = some 0
  anon : s.trans.anon = some a
  lastAnon : s.trans.lastAnon = some a
  next : s.anons.nextAnon = 1026
  nrLru : s.anons.nrLru = 1026
  lru : s.anons.lru = List.range' 0 1026
  mapping : ∀ k, k < 1026 → s.anons.anons k = (firstLines[k]?).map (lineMapping atFirst.trans)
  chain : ∀ h i, i ∈ s.anons.hashes h ↔ i < 1026 ∧ h = hashAnon 1 5
  table : ∃ fields, s.table.cores = [(0, fields)] ∧ fields.anon = some 1024 ∧ s.memory.sfiles 0 = fields ∧
    fields.ignored = false
  nextSfile : s.table.nextSfile = 1

/-- The mapping that an address of the first process lies in. -/
theorem firstLines_match {t : Transient} {k : Nat} {m : AnonMapping} (hpc : t.pc = 0x1800 ∨ t.pc = 0x3900)
    (hm : (firstLines[k]?).map (lineMapping atFirst.trans) = some m) (hmatch : Matches t m) :
    k = if t.pc = 0x1800 then 1024 else 1025 := by
  rw [firstLines_get] at hm
  obtain ⟨-, -, hstart, hstop⟩ := hmatch
  split_ifs at hm with hempty hlow hhigh
  · cases hm
    rcases hpc with hpc | hpc
    all_goals
      rw [hpc] at hstop
      exact absurd hstop (by decide)
  · cases hm
    rcases hpc with hpc | hpc
    · rw [if_pos hpc, hlow]
    · rw [hpc] at hstop
      exact absurd hstop (by decide)
  · cases hm
    rcases hpc with hpc | hpc
    · rw [hpc] at hstart
      exact absurd hstart (by decide)
    · rw [if_neg (by rw [hpc]; decide), hhigh]
  · cases hm

theorem find_first (pc : UInt64) {k : Nat} (hpc : pc = 0x1800 ∨ pc = 0x3900)
    (hk : k = if pc = 0x1800 then 1024 else 1025) (hat : s.trans.pc = pc) (htgid : s.trans.tgid = 1)
    (happ : s.trans.appCookie = 5)
    (hmapping : ∀ k, k < 1026 → s.anons.anons k = (firstLines[k]?).map (lineMapping atFirst.trans))
    (hchain : ∀ h i, i ∈ s.anons.hashes h ↔ i < 1026 ∧ h = hashAnon 1 5) : s.lookUpAnon = some k := by
  have hsmall : k < 1026 := by
    rw [hk]
    split_ifs <;> omega
  rw [lookUpAnon]
  apply find?_only
  · rw [htgid, happ]
    exact (hchain _ _).mpr ⟨hsmall, rfl⟩
  · have hm := hmapping k hsmall
    rw [firstLines_get] at hm
    rcases hpc with hlow | hhigh
    · rw [if_pos hlow] at hk
      rw [hk] at hm ⊢
      exact anonMatch_of_matches hm ⟨htgid.symm, happ.symm, by rw [hat, hlow]; decide, by rw [hat, hlow]; decide⟩
    · rw [if_neg (by rw [hhigh]; decide)] at hk
      rw [hk] at hm ⊢
      exact anonMatch_of_matches hm ⟨htgid.symm, happ.symm, by rw [hat, hhigh]; decide, by rw [hat, hhigh]; decide⟩
  · intro i hi hmatch
    obtain ⟨m, hm, hmatches⟩ := anonMatch_matches hmatch
    rw [hmapping i ((hchain _ _).mp hi).1] at hm
    rw [hk, ← hat]
    exact firstLines_match (hat ▸ hpc) hm hmatches

theorem createSfile_ignored (t : Transient) (addr : Nat) (hash : UInt64) (ki : Option (Nat × KernelImage)) :
    (createSfile plainSetup.toOptions t addr hash ki).ignored = false := by
  show isSfIgnored plainSetup.toOptions _ _ _ _ = false
  rw [isSfIgnored.eq_def]
  split
  · rfl
  · split_ifs <;> rfl

/-- A sample in a mapping makes the only sfile of an empty table. -/
theorem findCurrent_alone (sur : Surroundings) (htable : s.table.hashes = []) (huser : s.trans.inKernel = 0)
    (hoffset : s.trans.embeddedOffset = unusedEmbeddedOffset) (hcurrent : s.trans.current = none)
    (hanon : s.trans.anon = some a) (hlive : (s.anons.anons a).isSome = true) :
    ∃ tbl hash, s.findCurrent plainSetup.toOptions sur = some (s.setFound (.created s.table.nextSfile, tbl)) ∧
      tbl.hashes = [createSfile plainSetup.toOptions s.trans s.table.nextSfile hash (locate s.images s.trans)] ∧
      tbl.nextSfile = s.table.nextSfile + 1 := by
  have hplaced : ¬(s.trans.cookie = noCookie ∧ s.trans.anon = none) := by
    rw [hanon]
    exact fun h => (by cases h.2)
  obtain ⟨r, tbl, hfind⟩ := sfileFind_isSome (t := s.trans) plainSetup.toOptions s.images
    (sur.cmdline s.trans.tgid) s.table (by rw [hanon]; rintro b ⟨⟩; exact hlive)
  have hfound := hfind
  rw [sfileFind_user huser hplaced] at hfound
  obtain ⟨c, hc, -⟩ := hits_of_findSfile hoffset huser hfound
  have hset : s.findCurrent plainSetup.toOptions sur = some (s.setFound (r, tbl)) := by
    rw [findCurrent, if_neg (by rw [hcurrent]; simp), hfind]
    rfl
  rcases sfileFind_found hfind with ⟨-, rfl | ⟨sf, hsf, -⟩⟩ | ⟨hash, rfl, hhashes⟩
  · cases hc
  · rw [htable] at hsf
    cases hsf
  · refine ⟨tbl, hash, hset, by rw [hhashes, htable], ?_⟩
    rcases sfileFind_cores hfind with ⟨hcores, -⟩ | ⟨-, hnext⟩
    · rw [SfileTable.cores, hhashes, SfileTable.cores, htable] at hcores
      cases hcores
    · exact hnext

/-- The first process, when its lines are read. -/
def atRead : DaemonState := { (atFirst.beginSample 0x1800 0).clearTransCurrent with mapsRead := 1 }

theorem first_read : ∃ s, (atFirst.beginSample 0x1800 0).clearTransCurrent.clearAnonMaps.getAnonMaps manyMappings = s ∧
    Filled atRead s (firstLines.map (lineMapping atRead.trans)) := by
  have hclear : (atFirst.beginSample 0x1800 0).clearTransCurrent.clearAnonMaps =
      (atFirst.beginSample 0x1800 0).clearTransCurrent := rfl
  have hmaps : ∀ n, manyMappings.maps n 1 = firstLines := by
    intro n
    show (if (1 : Int32) = 1 then firstLines else secondLines) = firstLines
    rw [if_pos rfl]
  have hread : (atFirst.beginSample 0x1800 0).clearTransCurrent.getAnonMaps manyMappings =
      firstLines.foldl getAnonLine atRead := by
    rw [← hmaps 0]
    rfl
  have hroom : atRead.anons.nrLru + firstLines.length < anonLruSize := by
    rw [show atRead.anons.nrLru = 0 from rfl, firstLines_length]
    decide
  rw [hclear, hread]
  exact ⟨_, rfl, readLines_filled firstLines_anonymous hroom⟩

theorem firstLines_some {k : Nat} (hk : k < 1026) : ∃ line, firstLines[k]? = some line :=
  ⟨_, List.getElem?_eq_getElem (by rw [firstLines_length]; exact hk)⟩

theorem atRead_next : atRead.anons.nextAnon = 0 := rfl

theorem Filled.first_mapping (h : Filled atRead s (firstLines.map (lineMapping atRead.trans))) {k : Nat}
    (hk : k < 1026) : s.anons.anons k = (firstLines[k]?).map (lineMapping atFirst.trans) := by
  obtain ⟨line, hline⟩ := firstLines_some hk
  have hnew := h.new k (lineMapping atRead.trans line) (by rw [List.getElem?_map, hline, Option.map_some])
  rw [atRead_next, Nat.zero_add] at hnew
  rw [hnew, hline, Option.map_some]
  rfl

theorem Filled.first_chain (h : Filled atRead s (firstLines.map (lineMapping atRead.trans))) (hash : UInt64) (i : Nat) :
    i ∈ s.anons.hashes hash ↔ i < 1026 ∧ hash = hashAnon 1 5 := by
  rw [h.chain, atRead_next]
  constructor
  · rintro (hold | ⟨k, m, hk, rfl, hhash⟩)
    · cases hold
    · rw [List.getElem?_map] at hk
      obtain ⟨line, hline, rfl⟩ := Option.map_eq_some_iff.mp hk
      have hlt := (List.getElem?_eq_some_iff.mp hline).1
      rw [firstLines_length] at hlt
      exact ⟨by omega, hhash⟩
  · rintro ⟨hi, hhash⟩
    obtain ⟨line, hline⟩ := firstLines_some hi
    exact .inr ⟨i, lineMapping atRead.trans line, by rw [List.getElem?_map, hline, Option.map_some],
      (Nat.zero_add i).symm, hhash⟩

theorem Filled.first_lookUp (h : Filled atRead s (firstLines.map (lineMapping atRead.trans))) :
    s.lookUpAnon = some 1024 := by
  apply find_first 0x1800 (.inl rfl) rfl _ _ _ (fun k hk => h.first_mapping hk) h.first_chain
  all_goals
    rw [h.trans]
    rfl

/-- The mapping of the first sample. -/
theorem first_findAnon : ∃ s, Filled atRead s (firstLines.map (lineMapping atRead.trans)) ∧
    (atFirst.beginSample 0x1800 0).dropCached.findAnon manyMappings = setAnon (some 1024, s.foundAnon 1024) := by
  obtain ⟨s, hread, hfilled⟩ := first_read
  have hlook := hfilled.first_lookUp
  refine ⟨s, hfilled, ?_⟩
  have hmap : (atFirst.beginSample 0x1800 0).findAnonMapping manyMappings = (some 1024, s.foundAnon 1024) := by
    rcases findAnonMapping_cases (atFirst.beginSample 0x1800 0) manyMappings with ⟨a, hanon, -⟩ | ⟨-, a, hfound, -⟩ |
        ⟨-, -, s', -, hs', hcases⟩
    · cases hanon
    · cases hfound
    · rw [hread] at hs'
      subst hs'
      rcases hcases with ⟨a, hfound, hmap⟩ | ⟨hnone, -⟩
      · rw [hlook] at hfound
        cases hfound
        exact hmap
      · rw [hlook] at hnone
        cases hnone
  rcases findAnon_cases (atFirst.beginSample 0x1800 0) manyMappings with ⟨hkernel, -⟩ | ⟨-, hcookie, -⟩ | ⟨-, -, hfind⟩
  · exact (hkernel rfl).elim
  · exact (hcookie rfl).elim
  · rw [hfind, hmap]

/-- The first sample makes an sfile for the lower mapping. -/
theorem first_sampled (rest : Buffer) : ∃ s, atFirst.processItem plainSetup manyMappings (0x1800 :: 0 :: rest) =
    some (s, rest) ∧ Sampled s 1024 := by
  obtain ⟨s, hfilled, hfind⟩ := first_findAnon
  have hlive : (s.anons.anons 1024).isSome = true := by
    rw [hfilled.first_mapping (by decide), firstLines_get]
    rfl
  have htrans : (setAnon (some 1024, s.foundAnon 1024)).trans = { atRead.trans with anon := some 1024 } := by
    show ({ s.trans with anon := some 1024 } : Transient) = _
    rw [hfilled.trans]
  have htable : (setAnon (some 1024, s.foundAnon 1024)).table = atRead.table := hfilled.table
  have hchain : 1024 ∈ s.anons.hashes (hashAnon s.trans.tgid s.trans.appCookie) :=
    List.mem_of_find?_eq_some hfilled.first_lookUp
  obtain ⟨tbl, hash, hcurrent, hhashes, hnext⟩ := findCurrent_alone (s := setAnon (some 1024, s.foundAnon 1024))
    manyMappings (by rw [htable]; rfl) (by rw [htrans]; rfl) (by rw [htrans]; rfl) (by rw [htrans]; rfl)
    (by rw [htrans]) hlive
  generalize hs₁ : (setAnon (some 1024, s.foundAnon 1024)).setFound
    (.created (setAnon (some 1024, s.foundAnon 1024)).table.nextSfile, tbl) = s₁ at hcurrent
  have htrans₁ : s₁.trans = { atRead.trans with anon := some 1024, current := some 0 } := by
    rw [← hs₁]
    show ({ (setAnon (some 1024, s.foundAnon 1024)).trans with
      current := some (setAnon (some 1024, s.foundAnon 1024)).table.nextSfile } : Transient) = _
    rw [htrans, htable]
    rfl
  have hat : tbl.at 0 = some (createSfile plainSetup.toOptions (setAnon (some 1024, s.foundAnon 1024)).trans 0 hash
      (locate (setAnon (some 1024, s.foundAnon 1024)).images (setAnon (some 1024, s.foundAnon 1024)).trans)) := by
    rw [SfileTable.at, hhashes, List.find?_cons_of_pos]
    · rw [htable]
      rfl
    · rw [htable]
      rfl
  have hmemory : s₁.memory.sfiles 0 = (createSfile plainSetup.toOptions
      (setAnon (some 1024, s.foundAnon 1024)).trans 0 hash (locate (setAnon (some 1024, s.foundAnon 1024)).images
        (setAnon (some 1024, s.foundAnon 1024)).trans)).toSfileFields := by
    rw [← hs₁]
    show ((tbl.at 0).map Sfile.toSfileFields).getD _ = _
    rw [hat]
    rfl
  have hcontext : (atFirst.beginSample 0x1800 0).findContext plainSetup.toOptions manyMappings = some s₁ := by
    rw [findContext, hfind, hcurrent]
  obtain ⟨s', hput, hsame, htrans'⟩ := opdPutSample_off (c := 0) rest hcontext
    (by rw [htrans₁]) (by rw [hmemory]; exact createSfile_ignored ..)
    (by rw [htrans₁]; intro l hl; cases hl) (by rw [htrans₁]; rfl) (by rw [htrans₁]; decide) rfl
  rw [htrans₁] at htrans'
  have hanons : s'.anons = s.anons.toFront (hashAnon s.trans.tgid s.trans.appCookie) 1024 := by
    rw [hsame.anons, ← hs₁]
    rfl
  have hlength : (firstLines.map (lineMapping atRead.trans)).length = 1026 := by
    rw [List.length_map, firstLines_length]
  refine ⟨s', hput, by rw [htrans']; rfl, by rw [htrans']; rfl, by rw [htrans']; rfl, by rw [htrans']; rfl,
    by rw [htrans']; rfl, by rw [htrans']; rfl, by rw [htrans'], by rw [htrans'], by rw [htrans'], by rw [htrans'], ?_, ?_, ?_,
    fun k hk => ?_, fun h i => ?_, ?_, ?_⟩
  · rw [hanons]
    show s.anons.nextAnon = 1026
    rw [hfilled.next, hlength, atRead_next]
  · rw [hanons]
    show s.anons.nrLru = 1026
    rw [hfilled.nrLru, hlength, show atRead.anons.nrLru = 0 from rfl]
  · rw [hanons]
    show s.anons.lru = List.range' 0 1026
    rw [hfilled.lru, hlength, atRead_next, show atRead.anons.lru = [] from rfl, List.nil_append]
  · rw [hanons]
    exact hfilled.first_mapping hk
  · rw [hanons, mem_toFront hchain]
    exact hfilled.first_chain h i
  · refine ⟨s₁.memory.sfiles 0, ?_, ?_, by rw [hsame.memory], ?_⟩
    · rw [hsame.table, ← hs₁]
      show tbl.cores = _
      rw [SfileTable.cores, hhashes, List.map_singleton, hs₁, hmemory, htable]
      rfl
    · rw [hmemory]
      show (setAnon (some 1024, s.foundAnon 1024)).trans.anon = some 1024
      rw [htrans]
    · rw [hmemory]
      exact createSfile_ignored ..
  · rw [hsame.table, ← hs₁]
    show tbl.nextSfile = 1
    rw [hnext, htable]
    rfl

/-- The second sample, in the upper mapping, is logged in the sfile of the lower one. -/
theorem second_sampled (rest : Buffer) (h : Sampled s 1024) :
    ∃ s', s.processItem plainSetup manyMappings (0x3900 :: 0 :: rest) = some (s', rest) ∧ Sampled s' 1025 := by
  have hlook : (s.beginSample 0x3900 0).lookUpAnon = some 1025 :=
    find_first 0x3900 (.inr rfl) rfl rfl h.tgid h.appCookie h.mapping h.chain
  have hother : ¬(s.beginSample 0x3900 0).trans.anon.any (s.beginSample 0x3900 0).anonMatch = true := by
    have hanon : (s.beginSample 0x3900 0).trans.anon = some 1024 := h.anon
    rw [hanon, Option.any_some]
    intro hmatch
    obtain ⟨m, hm, hmatches⟩ := anonMatch_matches hmatch
    have hm : s.anons.anons 1024 = some m := hm
    rw [h.mapping 1024 (by decide)] at hm
    have hk := firstLines_match (.inr rfl) hm hmatches
    rw [show (s.beginSample 0x3900 0).trans.pc = 0x3900 from rfl, if_neg (by decide)] at hk
    cases hk
  have hmap : (s.beginSample 0x3900 0).findAnonMapping manyMappings =
      (some 1025, (s.beginSample 0x3900 0).foundAnon 1025) := by
    rw [findAnonMapping, if_neg hother, hlook]
  generalize hs₁ : setAnon (some 1025, (s.beginSample 0x3900 0).foundAnon 1025) = s₁
  have hcontext : (s.beginSample 0x3900 0).findContext plainSetup.toOptions manyMappings = some s₁ := by
    rcases findAnon_cases (s.beginSample 0x3900 0) manyMappings with ⟨hkernel, -⟩ | ⟨-, hcookie, -⟩ | ⟨-, -, hfind⟩
    · exact (hkernel h.inKernel).elim
    · exact (hcookie h.cookie).elim
    · rw [findContext, hfind, hmap, hs₁, findCurrent, if_pos]
      rw [← hs₁]
      show s.trans.current.isSome = true
      rw [h.current]
      rfl
  obtain ⟨fields, hcores, hanon, hmemory, hignored⟩ := h.table
  have htrans₁ : s₁.trans = { (s.beginSample 0x3900 0).trans with anon := some 1025 } := by
    rw [← hs₁]
    rfl
  have hmemory₁ : s₁.memory = s.memory := by
    rw [← hs₁]
    rfl
  obtain ⟨s', hput, hsame, htrans'⟩ := opdPutSample_off (c := 0) rest hcontext
    (by rw [htrans₁]; exact h.current) (by rw [hmemory₁, hmemory]; exact hignored)
    (by
      rw [htrans₁, hmemory₁]
      intro l hl
      have hl : s.trans.last = some l := hl
      rw [h.last] at hl
      cases hl
      rw [hmemory]
      exact hignored)
    (by rw [htrans₁]; exact h.tracing)
    (by
      rw [htrans₁]
      show (if s.trans.tracing = .on then s.trans.event else 0).toNat < _
      rw [if_neg (by rw [h.tracing]; decide)]
      decide)
    rfl
  rw [htrans₁] at htrans'
  have hanons : s'.anons = s.anons.toFront (hashAnon s.trans.tgid s.trans.appCookie) 1025 := by
    rw [hsame.anons, ← hs₁]
    rfl
  have hchain : 1025 ∈ s.anons.hashes (hashAnon s.trans.tgid s.trans.appCookie) := by
    rw [h.tgid, h.appCookie]
    exact (h.chain _ _).mpr ⟨by decide, rfl⟩
  have htable : s'.table = s.table := by
    rw [hsame.table, ← hs₁]
    rfl
  refine ⟨s', hput, ?_⟩
  exact {
    tracing := by rw [htrans']; exact h.tracing
    inKernel := by rw [htrans']; exact h.inKernel
    cookie := by rw [htrans']; exact h.cookie
    tgid := by rw [htrans']; exact h.tgid
    appCookie := by rw [htrans']; exact h.appCookie
    embedded := by rw [htrans']; exact h.embedded
    current := by rw [htrans']; exact h.current
    last := by rw [htrans']
    anon := by rw [htrans']
    lastAnon := by rw [htrans']
    next := by rw [hanons]; exact h.next
    nrLru := by rw [hanons]; exact h.nrLru
    lru := by rw [hanons]; exact h.lru
    mapping := fun k hk => by rw [hanons]; exact h.mapping k hk
    chain := fun hash i => by rw [hanons, mem_toFront hchain]; exact h.chain hash i
    table := ⟨fields, by rw [htable]; exact hcores, hanon, by rw [hsame.memory, hmemory₁]; exact hmemory, hignored⟩
    nextSfile := by rw [htable]; exact h.nextSfile }

/-- The second process, before its first sample. -/
def atSecond (s : DaemonState) : DaemonState :=
  { s.clearTransCurrent with trans := { s.clearTransCurrent.trans with tid := 4, appCookie := 7, tgid := 4 } }

/-- The second process, when its lines are read. -/
def atSecondRead (s : DaemonState) : DaemonState :=
  { ((atSecond s).beginSample 0x1800 0).clearTransCurrent with mapsRead := s.mapsRead + 1 }

/-- The second process has no mappings yet. -/
theorem Sampled.second_chain (h : Sampled s a) : s.anons.hashes (hashAnon 4 7) = [] := by
  rw [List.eq_nil_iff_forall_not_mem]
  intro i hi
  exact absurd ((h.chain _ i).mp hi).2 (by decide)

theorem Sampled.second_read (h : Sampled s a) :
    ∃ s', Filled (atSecondRead s) s' (secondLines.map (lineMapping (atSecondRead s).trans)) ∧
      ((atSecond s).beginSample 0x1800 0).clearTransCurrent.clearAnonMaps.getAnonMaps manyMappings = s'.doLru := by
  have hclear : ((atSecond s).beginSample 0x1800 0).clearTransCurrent.clearAnonMaps =
      ((atSecond s).beginSample 0x1800 0).clearTransCurrent := by
    rw [clearAnonMaps]
    have hempty : ((atSecond s).beginSample 0x1800 0).clearTransCurrent.anons.hashes (hashAnon
        ((atSecond s).beginSample 0x1800 0).clearTransCurrent.trans.tgid
        ((atSecond s).beginSample 0x1800 0).clearTransCurrent.trans.appCookie) = [] := h.second_chain
    rw [hempty]
    rfl
  have hmaps : ∀ n, manyMappings.maps n 4 = secondLines := by
    intro n
    show (if (4 : Int32) = 1 then firstLines else secondLines) = secondLines
    rw [if_neg (by decide)]
  have hread : ((atSecond s).beginSample 0x1800 0).clearTransCurrent.getAnonMaps manyMappings =
      secondLines.foldl getAnonLine (atSecondRead s) := by
    rw [← hmaps s.mapsRead]
    rfl
  have hfull : (atSecondRead s).anons.nrLru + (lowLine :: List.replicate 7164 emptyLine).length + 1 = anonLruSize := by
    rw [show (atSecondRead s).anons.nrLru = 1026 from h.nrLru, List.length_cons, List.length_replicate]
    rfl
  obtain ⟨s', hfilled, hlru⟩ := readLines_full secondLines_anonymous hfull
  refine ⟨s', hfilled, ?_⟩
  rw [hclear, hread]
  exact hlru

/-- The mappings that are evicted: the last of them is that of the first sample. -/
theorem Sampled.second_evicted (h : Sampled s 1025)
    (hfilled : Filled (atSecondRead s) s' (secondLines.map (lineMapping (atSecondRead s).trans))) :
    Evicted s' s'.doLru (List.range' 0 1025) := by
  have hdead : s'.anons.lru.take (anonLruAmount + 1) = List.range' 0 1025 := by
    rw [hfilled.lru, show (atSecondRead s).anons.lru = List.range' 0 1026 from h.lru,
      List.take_append_of_le_length (by rw [List.length_range']; decide), List.take_range'_of_length_ge (by decide)]
    rfl
  rw [← hdead]
  apply doLru_evicted
  · rw [hfilled.trans]
    rfl
  · intro b hb hlast
    rw [hdead, List.mem_range'] at hb
    obtain ⟨i, hi, rfl⟩ := hb
    rw [hfilled.trans] at hlast
    have hlast : s.trans.lastAnon = some (0 + 1 * i) := hlast
    rw [h.lastAnon, Option.some_inj] at hlast
    omega

/-- The first sample of the second process is found in its first mapping. -/
theorem Sampled.second_lookUp (h : Sampled s 1025)
    (hfilled : Filled (atSecondRead s) s' (secondLines.map (lineMapping (atSecondRead s).trans))) :
    ∃ b, s'.doLru.lookUpAnon = some b := by
  have hevicted := h.second_evicted hfilled
  have hline : (secondLines.map (lineMapping (atSecondRead s).trans))[0]? =
      some (lineMapping (atSecondRead s).trans lowLine) := rfl
  have hlive : 1026 ∉ List.range' 0 1025 := by
    rw [List.mem_range']
    rintro ⟨i, hi, heq⟩
    omega
  have hmapping : s'.doLru.anons.anons 1026 = some (lineMapping (atSecondRead s).trans lowLine) := by
    rw [hevicted.mapping 1026 hlive, ← hfilled.new 0 _ hline, show (atSecondRead s).anons.nextAnon = 1026 from h.next]
  have htrans : s'.doLru.trans = (atSecondRead s).trans := hevicted.trans.trans hfilled.trans
  have hmem : 1026 ∈ s'.doLru.anons.hashes (hashAnon s'.doLru.trans.tgid s'.doLru.trans.appCookie) := by
    apply hevicted.chain _ _ _ hlive
    rw [htrans]
    apply (hfilled.chain _ _).mpr (.inr ⟨0, _, hline, _, rfl⟩)
    rw [show (atSecondRead s).anons.nextAnon = 1026 from h.next]
  have hmatch : s'.doLru.anonMatch 1026 = true := by
    apply anonMatch_of_matches hmapping
    rw [htrans]
    exact ⟨rfl, rfl, by show (0x1000 : UInt64) ≤ 0x1800; decide, by show (0x1800 : UInt64) < 0x2000; decide⟩
  rw [lookUpAnon]
  cases hfind : List.find? s'.doLru.anonMatch
      (s'.doLru.anons.hashes (hashAnon s'.doLru.trans.tgid s'.doLru.trans.appCookie)) with
  | none => exact absurd hmatch (List.find?_eq_none.mp hfind 1026 hmem)
  | some b => exact ⟨b, rfl⟩

/-- The sfile of the first samples is freed with its mapping. -/
theorem Sampled.second_table (h : Sampled s 1025)
    (hfilled : Filled (atSecondRead s) s' (secondLines.map (lineMapping (atSecondRead s).trans))) :
    s'.doLru.table.hashes = [] := by
  have hevicted := h.second_evicted hfilled
  obtain ⟨fields, hcores, hanon, -⟩ := h.table
  have hone : s'.doLru.table.cores.Sublist [(0, fields)] := by
    rw [← hcores]
    have hsub := hevicted.cores
    rw [hfilled.table] at hsub
    exact hsub
  rw [← List.map_eq_nil_iff (f := Sfile.core), List.eq_nil_iff_forall_not_mem]
  intro x hx
  obtain rfl := List.mem_singleton.mp (hone.subset hx)
  exact hevicted.cleared _ hx 1024 (List.mem_range'.mpr ⟨1024, by decide, rfl⟩) hanon

/-- The first sample of the second process has a context in which the sfile of the sample before is no longer live. -/
theorem Sampled.second_context (h : Sampled s 1025) :
    ∃ s₁, ((atSecond s).beginSample 0x1800 0).findContext plainSetup.toOptions manyMappings = some s₁ ∧
      s₁.trans.current = some 1 ∧ s₁.trans.last = some 0 ∧ ¬LiveAt s₁ 0 := by
  obtain ⟨s', hfilled, hread⟩ := h.second_read
  have hevicted := h.second_evicted hfilled
  obtain ⟨b, hlook⟩ := h.second_lookUp hfilled
  have hlive := lookUpAnon_live hlook
  have hmap : ((atSecond s).beginSample 0x1800 0).findAnonMapping manyMappings = (some b, s'.doLru.foundAnon b) := by
    rcases findAnonMapping_cases ((atSecond s).beginSample 0x1800 0) manyMappings with ⟨a, hanon, -⟩ |
        ⟨-, a, hfound, -⟩ | ⟨-, -, x, -, hx, hcases⟩
    · cases hanon
    · have hmem := List.mem_of_find?_eq_some hfound
      have hmem : a ∈ s.anons.hashes (hashAnon 4 7) := hmem
      rw [h.second_chain] at hmem
      cases hmem
    · rw [hread] at hx
      subst hx
      rcases hcases with ⟨a, hfound, hmap⟩ | ⟨hnone, -⟩
      · rw [hlook] at hfound
        cases hfound
        exact hmap
      · rw [hlook] at hnone
        cases hnone
  have htrans : s'.doLru.trans = (atSecondRead s).trans := hevicted.trans.trans hfilled.trans
  have hnext : s'.doLru.table.nextSfile = 1 := by
    rw [hevicted.next, hfilled.table]
    exact h.nextSfile
  obtain ⟨tbl, hash, hcurrent, hhashes, -⟩ := findCurrent_alone (s := setAnon (some b, s'.doLru.foundAnon b))
    (a := b) manyMappings (h.second_table hfilled)
    (show s'.doLru.trans.inKernel = 0 by rw [htrans]; exact h.inKernel)
    (show s'.doLru.trans.embeddedOffset = unusedEmbeddedOffset by rw [htrans]; exact h.embedded)
    (show s'.doLru.trans.current = none by rw [htrans]; rfl) rfl hlive
  have hcontext : ((atSecond s).beginSample 0x1800 0).findContext plainSetup.toOptions manyMappings =
      some ((setAnon (some b, s'.doLru.foundAnon b)).setFound (.created s'.doLru.table.nextSfile, tbl)) := by
    rcases findAnon_cases ((atSecond s).beginSample 0x1800 0) manyMappings with ⟨hkernel, -⟩ | ⟨-, hcookie, -⟩ |
        ⟨-, -, hfind⟩
    · exact (hkernel h.inKernel).elim
    · exact (hcookie h.cookie).elim
    · rw [findContext, hfind, hmap]
      exact hcurrent
  refine ⟨_, hcontext, congrArg some hnext, ?_, ?_⟩
  · show s'.doLru.trans.last = some 0
    rw [htrans]
    exact h.last
  · rintro ⟨sf, hsf, haddr⟩
    have hsf : sf ∈ tbl.hashes := hsf
    rw [hhashes] at hsf
    obtain rfl := List.mem_singleton.mp hsf
    have haddr : s'.doLru.table.nextSfile = 0 := haddr
    rw [hnext] at haddr
    cases haddr

/-- When the mapping of the sample before is not the one that its sfile is for, eviction leaves `trans->last` behind. -/
theorem evicted_last_dangles : ∃ s, RunWhere (fun _ _ => True) plainSetup manyMappings s [0x1800, 0] ∧
    ¬NoDangling plainSetup manyMappings s [0x1800, 0] := by
  obtain ⟨s, hfirst, hs⟩ := first_sampled (0x3900 :: 0 :: (secondSwitch ++ [0x1800, 0]))
  obtain ⟨s', hsecond, hs'⟩ := second_sampled (secondSwitch ++ [0x1800, 0]) hs
  have hstart : RunWhere (fun _ _ => True) plainSetup manyMappings atFirst
      (0x1800 :: 0 :: 0x3900 :: 0 :: (secondSwitch ++ [0x1800, 0])) := by
    have hinit : RunWhere (fun _ _ => True) plainSetup manyMappings (DaemonState.init smallImages).startBuffer
        (firstSwitch ++ (0x1800 :: 0 :: 0x3900 :: 0 :: (secondSwitch ++ [0x1800, 0]))) := .init smallImages _
    exact .item (.item (.item hinit trivial rfl) trivial rfl) trivial rfl
  have hrun : RunWhere (fun _ _ => True) plainSetup manyMappings (atSecond s') [0x1800, 0] :=
    .item (.item (.item hstart trivial hfirst) trivial hsecond) trivial rfl
  obtain ⟨s₁, hcontext, hcurrent, hlast, hdead⟩ := hs'.second_context
  refine ⟨atSecond s', hrun, fun hdangling => ?_⟩
  have hlooks : LooksUp plainSetup (atSecond s') [0x1800, 0] ((atSecond s').beginSample 0x1800 0) := .sample rfl
  exact hdead (((hdangling.2 _ s₁ hlooks hcontext).2 1 hcurrent).2 0 hlast)

end DaemonState
end Oprofile.Daemon
