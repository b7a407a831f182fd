import Oprofile.Operf.MappingTables

/-! Which mapping the samples of a process are attributed to, over the records of a run. -/
namespace Oprofile.Operf

variable {n : Nat} {cfg : Config n} {env : Env} {images : KernelImages} {s s' : OperfState}
  {t : Processes} {p : ProcessInfo} {pid par j : UInt32} {V : View} {start ip a : UInt64}
  {id : MmapId} {m : OperfMmap} {mmaps : MmapId → Option OperfMmap} {e : MmapEvent}

/-- The addresses from `start` to `start + len - 1`. -/
def MmapEvent.Spans (e : MmapEvent) (ip : UInt64) : Prop :=
  e.start.toNat ≤ ip.toNat ∧ ip.toNat < e.start.toNat + e.len.toNat

def OperfMmap.Covers (m : OperfMmap) (ip : UInt64) : Prop := m.startAddr ≤ ip ∧ ip ≤ m.endAddr

/-- A mapping with the start, the length, the page offset and the file name of a record. -/
structure Shows (m : OperfMmap) (e : MmapEvent) : Prop where
  start : m.startAddr = e.start
  len : m.endAddr.toNat + 1 = e.start.toNat + e.len.toNat
  pgoff : m.pgoff = e.pgoff
  filename : m.filename = e.filename

theorem Shows.covers_iff (h : Shows m e) (ip : UInt64) : m.Covers ip ↔ e.Spans ip := by
  have hlen := h.len
  rw [OperfMmap.Covers, MmapEvent.Spans, h.start, UInt64.le_iff_toNat_le, UInt64.le_iff_toNat_le]
  omega

/-- What a record tells is what a mapping for it can hold: its range ends below 2^64, it is not the
empty range at 0, whose end would be its start, and it is not renamed. -/
structure MmapEvent.Plain (e : MmapEvent) : Prop where
  inside : e.start.toNat + e.len.toNat ≤ 2 ^ 64
  nonzero : e.start ≠ 0 ∨ e.len ≠ 0
  named : slashAnon.isPrefixOf e.filename = false

/-- A mapping that is right for a record: it has the addresses of the record, and shows it where
there are any. -/
structure Carries (m : OperfMmap) (e : MmapEvent) : Prop where
  covers_iff : ∀ ip, m.Covers ip ↔ e.Spans ip
  shows : e.len ≠ 0 → Shows m e

theorem MmapEvent.Plain.carries (h : e.Plain) : Carries (mmapOf e) e := by
  have hin := h.inside
  have hshows : e.len ≠ 0 → Shows (mmapOf e) e := by
    intro hlen
    refine ⟨rfl, ?_, rfl, by simp [mmapOf, h.named]⟩
    have hpos : e.len.toNat ≠ 0 := fun hzero => hlen (UInt64.toNat_inj.mp hzero)
    have hstart := e.start.toNat_lt
    have hlt := e.len.toNat_lt
    rw [mmapOf]
    simp only [if_neg hlen, UInt64.toNat_sub, UInt64.toNat_add, UInt64.toNat_one]
    omega
  refine ⟨fun ip => ?_, hshows⟩
  by_cases hlen : e.len = 0
  · have hstart : e.start.toNat ≠ 0 := by
      intro hzero
      exact h.nonzero.elim (fun hne => hne (UInt64.toNat_inj.mp hzero)) fun hne => hne hlen
    rw [OperfMmap.Covers, MmapEvent.Spans, UInt64.le_iff_toNat_le, UInt64.le_iff_toNat_le]
    simp only [mmapOf, hlen, if_true, UInt64.toNat_zero]
    omega
  · exact (hshows hlen).covers_iff ip

theorem MmapEvent.Spans.len_ne (h : e.Spans ip) : e.len ≠ 0 := by
  rintro hzero
  rw [MmapEvent.Spans, hzero, UInt64.toNat_zero] at h
  omega

/-- The mappings of one process, each under its start. -/
abbrev Table := UInt64 → Option OperfMmap

def View.table (V : View) (mmaps : MmapId → Option OperfMmap) (pid : UInt32) : Table :=
  fun a => (V.filed pid a).bind mmaps

def View.keptTable (V : View) (mmaps : MmapId → Option OperfMmap) (pid : UInt32) : Table :=
  fun a => (V.kept pid a).bind mmaps

/-- A table of one mapping. -/
def Table.single (start : UInt64) (m : OperfMmap) : Table := fun a => if a = start then some m else none

@[simp] theorem Table.single_self (start : UInt64) (m : OperfMmap) :
    Table.single start m start = some m := if_pos rfl

theorem Table.single_ne (h : a ≠ start) : Table.single start m a = none := if_neg h

/-- The mappings of one table over those of another. -/
def Table.overlay (y x : Table) : Table := fun a => (y a).or (x a)

/-- The search in the order of the starts comes to the mapping of a record, or to none. -/
def FoundFor (t : Table) (ip : UInt64) : Option MmapEvent → Prop
  | none => ∀ a m, t a = some m → ¬ m.Covers ip
  | some e => (∃ m, t e.start = some m ∧ Shows m e) ∧
      ∀ a m, a < e.start → t a = some m → ¬ m.Covers ip

/-- Nothing of `x` that is left under `y` comes before a mapping found in `y`. -/
def Yields (x y : Table) (r : Option MmapEvent) (ip : UInt64) : Prop :=
  ∀ a m, y a = none → x a = some m → m.Covers ip → ∃ e, r = some e ∧ e.start ≤ a

/-- Nothing of `y` replaces a mapping found below it, or comes before it. -/
def Stays (y : Table) (r : Option MmapEvent) (ip : UInt64) : Prop :=
  ∀ a m, y a = some m → (m.Covers ip → ∃ e, r = some e ∧ e.start ≤ a) ∧
    ∀ e, r = some e → e.start = a → Shows m e

section Overlay

variable {x y : Table} {r : Option MmapEvent}

theorem FoundFor.yield (h : FoundFor y ip r) (hx : Yields x y r ip) : FoundFor (y.overlay x) ip r := by
  cases r with
  | none =>
    intro a m hm hcov
    cases hy : y a with
    | some m' =>
      rw [Table.overlay, hy, Option.some_or] at hm
      cases hm
      exact h a m hy hcov
    | none =>
      rw [Table.overlay, hy, Option.none_or] at hm
      obtain ⟨e, he, -⟩ := hx a m hy hm hcov
      cases he
  | some e =>
    obtain ⟨⟨m, hm, hshows⟩, hleast⟩ := h
    refine ⟨⟨m, by rw [Table.overlay, hm, Option.some_or], hshows⟩, fun a m' hlt hm' hcov => ?_⟩
    cases hy : y a with
    | some m'' =>
      rw [Table.overlay, hy, Option.some_or] at hm'
      cases hm'
      exact hleast a m' hlt hy hcov
    | none =>
      rw [Table.overlay, hy, Option.none_or] at hm'
      obtain ⟨e', he', hle⟩ := hx a m' hy hm' hcov
      cases he'
      exact absurd hlt (UInt64.not_lt.mpr hle)

theorem FoundFor.stay (h : FoundFor x ip r) (hy : Stays y r ip) : FoundFor (y.overlay x) ip r := by
  cases r with
  | none =>
    intro a m hm hcov
    cases hya : y a with
    | some m' =>
      rw [Table.overlay, hya, Option.some_or] at hm
      cases hm
      obtain ⟨e, he, -⟩ := (hy a m hya).1 hcov
      cases he
    | none =>
      rw [Table.overlay, hya, Option.none_or] at hm
      exact h a m hm hcov
  | some e =>
    obtain ⟨⟨m, hm, hshows⟩, hleast⟩ := h
    refine ⟨?_, fun a m' hlt hm' hcov => ?_⟩
    · cases hya : y e.start with
      | some m' => exact ⟨m', by rw [Table.overlay, hya, Option.some_or], (hy _ m' hya).2 e rfl rfl⟩
      | none => exact ⟨m, by rw [Table.overlay, hya, Option.none_or, hm], hshows⟩
    · cases hya : y a with
      | some m'' =>
        rw [Table.overlay, hya, Option.some_or] at hm'
        cases hm'
        obtain ⟨e', he', hle⟩ := (hy a m' hya).1 hcov
        cases he'
        exact absurd hlt (UInt64.not_lt.mpr hle)
      | none =>
        rw [Table.overlay, hya, Option.none_or] at hm'
        exact hleast a m' hlt hm' hcov

/-- What is already in the table comes before nothing. -/
theorem FoundFor.stays_of_sub (h : FoundFor x ip r) (hsub : ∀ a m, y a = some m → x a = some m) :
    Stays y r ip := by
  intro a m hm
  refine ⟨fun hcov => ?_, fun e he ha => ?_⟩
  · cases r with
    | none => exact (h a m (hsub a m hm) hcov).elim
    | some e => exact ⟨e, rfl, UInt64.not_lt.mp fun hlt => h.2 a m hlt (hsub a m hm) hcov⟩
  · subst he
    subst ha
    obtain ⟨⟨m', hm', hshows⟩, -⟩ := h
    rw [hsub _ m hm, Option.some_inj] at hm'
    rwa [hm']

/-- The address is in the range of the record whose mapping is searched for. -/
theorem FoundFor.covered (h : FoundFor x ip (some e)) (hin : e.Spans ip) :
    ∃ m, x e.start = some m ∧ m.Covers ip := by
  obtain ⟨⟨m, hm, hshows⟩, -⟩ := h
  exact ⟨m, hm, (hshows.covers_iff ip).mpr hin⟩

/-- At an address of a new mapping. -/
theorem FoundFor.inside (hc : Carries m e) (hin : e.Spans ip)
    (hlower : ∀ a m', a < e.start → x a = some m' → ¬ m'.Covers ip) :
    FoundFor ((Table.single e.start m).overlay x) ip (some e) := by
  refine FoundFor.yield ⟨⟨m, Table.single_self _ _, hc.shows hin.len_ne⟩, fun a m' hlt hm' => ?_⟩
    fun a m' _ hm' hcov => ⟨e, rfl, UInt64.not_lt.mp fun hlt => hlower a m' hlt hm' hcov⟩
  rw [Table.single_ne (UInt64.ne_of_lt hlt)] at hm'
  cases hm'

/-- At any other address. -/
theorem FoundFor.outside (h : FoundFor x ip r) (hc : Carries m e) (hout : ¬ e.Spans ip)
    (hr : ∀ e', r = some e' → e'.Spans ip)
    (htail : ∀ m', x e.start = some m' → m'.Covers ip → e.Spans ip) :
    FoundFor ((Table.single e.start m).overlay x) ip r := by
  refine h.stay fun a m' hm' => ?_
  by_cases ha : a = e.start
  · rw [ha, Table.single_self, Option.some_inj] at hm'
    subst hm'
    refine ⟨fun hcov => (hout ((hc.covers_iff ip).mp hcov)).elim, fun e' he' hstart => ?_⟩
    subst he'
    obtain ⟨m', hm', hcov⟩ := h.covered (hr e' rfl)
    rw [hstart, ha] at hm'
    exact (hout (htail m' hm' hcov)).elim
  · rw [Table.single_ne ha] at hm'
    cases hm'

end Overlay

/-- A MMAP record, and the processes that have inherited it. -/
structure Heard where
  record : MmapEvent
  inherited : UInt32 → Prop

/-- It is a record of the process, or inherited by it. -/
def Heard.Of (pid : UInt32) (c : Heard) : Prop := c.record.pid = pid ∨ c.inherited pid

open Classical in
/-- The most recent of the records, the first of which is the last received, with an address in its
range. -/
noncomputable def newest (hist : List Heard) (P : Heard → Prop) (ip : UInt64) : Option MmapEvent :=
  (hist.find? fun c => P c ∧ c.record.Spans ip).map (·.record)

section Newest

variable {hist : List Heard} {c : Heard} {P Q : Heard → Prop}

theorem newest_cons_pos (h : P c ∧ c.record.Spans ip) : newest (c :: hist) P ip = some c.record := by
  rw [newest, List.find?_cons_of_pos (by simpa using h), Option.map_some]

theorem newest_cons_neg (h : ¬ (P c ∧ c.record.Spans ip)) : newest (c :: hist) P ip = newest hist P ip := by
  rw [newest, List.find?_cons_of_neg (by simpa using h), newest]

theorem newest_map {g : Heard → Heard} (hg : ∀ c, (g c).record = c.record)
    (hP : ∀ c, P (g c) ↔ Q c) : newest (hist.map g) P ip = newest hist Q ip := by
  induction hist with
  | nil => rfl
  | cons c hist ih =>
    by_cases h : Q c ∧ c.record.Spans ip
    · rw [List.map_cons, newest_cons_pos h, newest_cons_pos (by rwa [hP, hg]), hg]
    · rw [List.map_cons, newest_cons_neg h, newest_cons_neg (by rwa [hP, hg]), ih]

/-- Of two kinds of records the most recent is the most recent of one of them. -/
theorem newest_or : newest hist (fun c => P c ∨ Q c) ip = newest hist P ip ∨
    newest hist (fun c => P c ∨ Q c) ip = newest hist Q ip := by
  induction hist with
  | nil => exact Or.inl rfl
  | cons c hist ih =>
    by_cases hspan : c.record.Spans ip
    · by_cases hP : P c
      · rw [newest_cons_pos ⟨Or.inl hP, hspan⟩, newest_cons_pos ⟨hP, hspan⟩]
        exact Or.inl rfl
      · by_cases hQ : Q c
        · rw [newest_cons_pos ⟨Or.inr hQ, hspan⟩, newest_cons_pos (P := Q) ⟨hQ, hspan⟩]
          exact Or.inr rfl
        · rw [newest_cons_neg (fun h => h.1.elim hP hQ), newest_cons_neg (fun h => hP h.1),
            newest_cons_neg (P := Q) (fun h => hQ h.1)]
          exact ih
    · rw [newest_cons_neg (fun h => hspan h.2), newest_cons_neg (fun h => hspan h.2),
        newest_cons_neg (P := Q) (fun h => hspan h.2)]
      exact ih

theorem newest_or_none (h : newest hist (fun c => P c ∨ Q c) ip = none) :
    newest hist P ip = none ∧ newest hist Q ip = none := by
  induction hist with
  | nil => exact ⟨rfl, rfl⟩
  | cons c hist ih =>
    by_cases hc : (P c ∨ Q c) ∧ c.record.Spans ip
    · rw [newest_cons_pos hc] at h
      cases h
    · rw [newest_cons_neg hc] at h
      rw [newest_cons_neg fun hP => hc ⟨Or.inl hP.1, hP.2⟩, newest_cons_neg fun hQ => hc ⟨Or.inr hQ.1, hQ.2⟩]
      exact ih h

theorem newest_spans (h : newest hist P ip = some e) : e.Spans ip := by
  rw [newest, Option.map_eq_some_iff] at h
  obtain ⟨c, hc, rfl⟩ := h
  have hfound := List.find?_some hc
  simp only [decide_eq_true_eq] at hfound
  exact hfound.2

end Newest

/-- What the records tell of the mappings of the processes. -/
def heardAfter (s : OperfState) (hist : List Heard) : Event → List Heard
  | .mmap e =>
    if e.misc &&& perfRecordMiscKernel = 0 then ⟨e, s.procs.view.StrictlyBelow e.pid⟩ :: hist else hist
  | .fork f => hist.map fun c => { c with
      inherited := fun j => c.inherited j ∨
        (s.procs.view.Attaches f.pid f.ppid ∧ s.procs.view.Below f.pid j ∧ c.Of f.ppid) }
  | .comm c => hist.map fun h => { h with
      inherited := fun j => h.inherited j ∧ ¬ (j = c.pid ∧ s.procs.view.Leaves c.pid (c.pid == c.tid)) }
  | _ => hist

/-- For every process and every address the most recent record is found. -/
def FollowsRecords (V : View) (mmaps : MmapId → Option OperfMmap) (hist : List Heard) : Prop :=
  ∀ pid ip, FoundFor (V.table mmaps pid) ip (newest hist (Heard.Of pid) ip)

/-- The most recent of the records of two processes starts before all mappings that one of them has
for the address, where both have some. -/
def InOrder (x y : Table) (r : Option MmapEvent) (ip : UInt64) : Prop :=
  ∀ e, r = some e → ∀ a m b m', y a = some m → m.Covers ip → x b = some m' → m'.Covers ip →
    e.start ≤ a ∧ e.start ≤ b

/-- The mappings of two processes in one table, no two of them at one start. -/
theorem FoundFor.merge {x y : Table} {hist : List Heard} {P Q : Heard → Prop}
    (hy : FoundFor y ip (newest hist P ip)) (hx : FoundFor x ip (newest hist Q ip))
    (hsame : ∀ a m, y a = some m → x a = none ∨ x a = some m)
    (horder : InOrder x y (newest hist (fun c => P c ∨ Q c) ip) ip) :
    FoundFor (y.overlay x) ip (newest hist (fun c => P c ∨ Q c) ip) := by
  have hor : newest hist (fun c => P c ∨ Q c) ip = newest hist P ip ∨
      newest hist (fun c => P c ∨ Q c) ip = newest hist Q ip := newest_or
  rcases hor with heq | heq
  · rw [heq] at horder ⊢
    refine hy.yield fun b m' _ hm' hcov => ?_
    cases hr : newest hist P ip with
    | none =>
      rw [(newest_or_none (heq.trans hr)).2] at hx
      exact (hx b m' hm' hcov).elim
    | some e =>
      rw [hr] at hy
      obtain ⟨m, hm, hcov'⟩ := hy.covered (newest_spans hr)
      exact ⟨e, rfl, (horder e hr e.start m b m' hm hcov' hm' hcov).2⟩
  · rw [heq] at horder ⊢
    refine hx.stay fun a m hm => ⟨fun hcov => ?_, fun e he ha => ?_⟩
    · cases hr : newest hist Q ip with
      | none =>
        rw [(newest_or_none (heq.trans hr)).1] at hy
        exact (hy a m hm hcov).elim
      | some e =>
        rw [hr] at hx
        obtain ⟨m', hm', hcov'⟩ := hx.covered (newest_spans hr)
        exact ⟨e, rfl, (horder e hr a m e.start m' hm hcov hm' hcov').1⟩
    · rw [he] at hx
      obtain ⟨⟨m', hm', hshows⟩, -⟩ := hx
      rcases hsame a m hm with hnone | hsame
      · rw [ha, hnone] at hm'
        cases hm'
      · rw [ha, hsame, Option.some_inj] at hm'
        rwa [hm']

/-- What a forked process, and those below it, get of the parent is new to them or their own already,
and is in order with what they have. -/
structure ForkFits (V : View) (mmaps : MmapId → Option OperfMmap) (hist : List Heard) (pid par : UInt32) :
    Prop where
  received : ∀ j, V.Below pid j → ∀ a m, V.table mmaps par a = some m →
    V.table mmaps j a = none ∨ V.keptTable mmaps j a = some m
  ordered : ∀ j, V.Below pid j → ∀ ip, InOrder (V.table mmaps j) (V.table mmaps par)
    (newest hist (fun c => c.Of par ∨ c.Of j) ip) ip

/-- What a process that leaves its parent keeps, those below it keep too. -/
def LeaveFits (V : View) (mmaps : MmapId → Option OperfMmap) (pid : UInt32) : Prop :=
  ∀ f, V.StrictlyBelow pid f → ∀ a m, V.keptTable mmaps pid a = some m → V.keptTable mmaps f a = some m

theorem View.table_of_kept (h : V.keptTable mmaps pid a = some m) : V.table mmaps pid a = some m := by
  rw [View.keptTable, View.kept] at h
  split_ifs at h
  · cases h
  · exact h

/-- What has been received by a process itself is found for its own records. -/
def FollowsOwn (own : Own) (hist : List Heard) : Prop :=
  ∀ pid ip, FoundFor (own pid) ip (newest hist (fun c => c.record.pid = pid) ip)

namespace FollowsRecords

variable {hist : List Heard}

theorem congr {V' : View} {mmaps' : MmapId → Option OperfMmap} (h : FollowsRecords V mmaps hist)
    (ht : ∀ pid, V'.table mmaps' pid = V.table mmaps pid) : FollowsRecords V' mmaps' hist := by
  intro pid ip
  rw [ht]
  exact h pid ip

/-- A new mapping of a process. -/
theorem mmap (h : FollowsRecords V mmaps hist) (hm : mmaps id = some m)
    (hknown : ∀ j, V.StrictlyBelow e.pid j → (V j).isSome = true)
    (hcarries : Carries m e)
    (hlower : ∀ j a m', V.Below e.pid j → a < e.start → V.table mmaps j a = some m' →
      ∀ ip, e.Spans ip → ¬ m'.Covers ip)
    (htail : ∀ j m', V.Below e.pid j → V.table mmaps j e.start = some m' →
      ∀ ip, m'.Covers ip → e.Spans ip) :
    FollowsRecords (V.mmap e.pid e.start id) mmaps (⟨e, V.StrictlyBelow e.pid⟩ :: hist) := by
  have hlinks : View.SameLinks V (V.ensure e.pid) := View.ensure_sameLinks
  intro j ip
  by_cases hbelow : V.Below e.pid j
  · have hsome : (V.ensure e.pid j).isSome = true := by
      rcases View.below_iff.mp hbelow with rfl | hstrict
      · obtain ⟨x, hx⟩ := View.ensure_some V e.pid
        rw [hx]
        rfl
      · by_cases hj : j = e.pid
        · obtain ⟨x, hx⟩ := View.ensure_some V e.pid
          rw [hj, hx]
          rfl
        · rw [View.ensure_other hj]
          exact hknown j hstrict
    obtain ⟨x, hx⟩ := Option.isSome_iff_exists.mp hsome
    have htable : (V.mmap e.pid e.start id).table mmaps j =
        Table.overlay (Table.single e.start m) (V.table mmaps j) := by
      funext a
      rw [View.table, View.mmap, View.filed_handDown, hlinks.below, View.filed_ensure, hx, Table.overlay]
      by_cases ha : a = e.start
      · rw [if_pos ⟨ha, hbelow⟩, ha, Table.single_self, Option.map_some, Option.bind_some, hm, Option.some_or]
      · rw [if_neg (fun hc => ha hc.1), Table.single_ne ha, Option.none_or, View.table]
    rw [htable]
    by_cases hin : e.Spans ip
    · have hof : Heard.Of j ⟨e, V.StrictlyBelow e.pid⟩ := by
        rcases View.below_iff.mp hbelow with rfl | hstrict
        · exact Or.inl rfl
        · exact Or.inr hstrict
      rw [newest_cons_pos ⟨hof, hin⟩]
      exact FoundFor.inside hcarries hin fun a m' hlt hm' => hlower j a m' hbelow hlt hm' ip hin
    · rw [newest_cons_neg (fun hc => hin hc.2)]
      exact (h j ip).outside hcarries hin (fun _ he => newest_spans he) fun m' hm' hcov =>
        htail j m' hbelow hm' ip hcov
  · have hof : ¬ Heard.Of j ⟨e, V.StrictlyBelow e.pid⟩ := by
      rintro (heq | hstrict)
      · exact hbelow (View.below_iff.mpr (Or.inl heq.symm))
      · exact hbelow (View.below_iff.mpr (Or.inr hstrict))
    have htable : (V.mmap e.pid e.start id).table mmaps j = V.table mmaps j := by
      funext a
      rw [View.table, View.mmap, View.filed_handDown, hlinks.below, View.filed_ensure,
        if_neg (fun hc => hbelow hc.2), View.table]
    rw [htable, newest_cons_neg (fun hc => hof hc.1)]
    exact h j ip

/-- A forked process, and those below it, get the mappings of the parent. -/
theorem fork (h : FollowsRecords V mmaps hist) (hatt : V.Attaches pid par)
    (htable : ∀ j, V.Below pid j → (V.fork pid par).table mmaps j =
      (V.table mmaps par).overlay (V.table mmaps j))
    (hother : ∀ j, ¬ V.Below pid j → (V.fork pid par).table mmaps j = V.table mmaps j)
    (hfits : ForkFits V mmaps hist pid par) :
    FollowsRecords (V.fork pid par) mmaps (hist.map fun c => { c with
      inherited := fun j => c.inherited j ∨ (V.Attaches pid par ∧ V.Below pid j ∧ c.Of par) }) := by
  intro j ip
  by_cases hbelow : V.Below pid j
  · rw [htable j hbelow, newest_map (Q := fun c => c.Of par ∨ c.Of j) (fun _ => by rfl) fun c => ?_]
    · exact (h par ip).merge (h j ip)
        (fun a m hm => (hfits.received j hbelow a m hm).imp_right View.table_of_kept)
        (hfits.ordered j hbelow ip)
    · rw [Heard.Of, Heard.Of]
      constructor
      · rintro (hown | hinh | ⟨-, -, hof⟩)
        · exact Or.inr (Or.inl hown)
        · exact Or.inr (Or.inr hinh)
        · exact Or.inl hof
      · rintro (hof | hown | hinh)
        · exact Or.inr (Or.inr ⟨hatt, hbelow, hof⟩)
        · exact Or.inl hown
        · exact Or.inr (Or.inl hinh)
  · rw [hother j hbelow, newest_map (Q := Heard.Of j) (fun _ => by rfl) fun c => ?_]
    · exact h j ip
    · simp [Heard.Of, hbelow]

/-- A process leaves its parent with what it keeps, which it hands down once more. -/
theorem leave {leader : Bool} (h : FollowsRecords V mmaps hist) (hleaves : V.Leaves pid leader)
    (hself : (V.comm pid leader).table mmaps pid = V.keptTable mmaps pid)
    (htable : ∀ j, j ≠ pid → V.Below pid j → (V.comm pid leader).table mmaps j =
      (V.keptTable mmaps pid).overlay (V.table mmaps j))
    (hother : ∀ j, ¬ V.Below pid j → (V.comm pid leader).table mmaps j = V.table mmaps j)
    (hown : ∀ ip, FoundFor (V.keptTable mmaps pid) ip (newest hist (fun c => c.record.pid = pid) ip))
    (hfits : LeaveFits V mmaps pid) :
    FollowsRecords (V.comm pid leader) mmaps (hist.map fun c => { c with
      inherited := fun j => c.inherited j ∧ ¬ (j = pid ∧ V.Leaves pid leader) }) := by
  intro j ip
  by_cases hj : j = pid
  · subst hj
    rw [hself, newest_map (Q := fun c => c.record.pid = j) (fun _ => by rfl)
      fun c => by simp [Heard.Of, hleaves]]
    exact hown ip
  · rw [newest_map (Q := Heard.Of j) (fun _ => by rfl) fun c => by simp [Heard.Of, hj]]
    by_cases hbelow : V.Below pid j
    · rw [htable j hj hbelow]
      have hstrict := (View.below_iff.mp hbelow).resolve_left hj
      exact (h j ip).stay ((h j ip).stays_of_sub fun a m hm => View.table_of_kept (hfits j hstrict a m hm))
    · rw [hother j hbelow]
      exact h j ip

end FollowsRecords

section Tables

theorem View.change_isSome {f : Ties → Ties} (j : UInt32) : (V.change pid f j).isSome = (V j).isSome := by
  by_cases hj : j = pid
  · subst hj
    rw [View.change, Function.update_self, Option.isSome_map]
  · rw [View.change, Function.update_of_ne hj]

theorem View.below_link_iff {y : Ties} (hpar : V par = some y) (hne : pid ≠ par)
    (hno : ¬ (V.link pid par).StrictlyBelow pid pid) : (V.link pid par).Below pid j ↔ V.Below pid j := by
  refine ⟨View.below_link hpar hne hno, fun h => Relation.ReflTransGen.mono (fun b c hbc => ?_) pid j h⟩
  rw [Links.Child, View.children_link hpar hne]
  split_ifs with heq
  · subst heq
    exact List.mem_append_left _ hbc
  · exact hbc

/-- Below a known process there are only known ones. -/
theorem ViewOk.below_known (hok : ViewOk V mmaps) (hpid : (V pid).isSome = true) (h : V.Below pid j) :
    (V j).isSome = true := by
  rcases View.below_iff.mp h with rfl | hstrict
  · exact hpid
  · obtain ⟨c, -, hc⟩ := Relation.TransGen.tail'_iff.mp hstrict
    rw [Links.Child, hok.consistent.mem_iff, View.parent] at hc
    cases hx : V j with
    | none =>
      rw [hx] at hc
      cases hc
    | some x => rfl

theorem View.table_overlay {o o' : Option MmapId} (ho : ∀ id, o = some id → ∃ m, mmaps id = some m) :
    (o.or o').bind mmaps = (o.bind mmaps).or (o'.bind mmaps) := by
  cases o with
  | none => simp
  | some id =>
    obtain ⟨m, hm⟩ := ho id rfl
    simp [hm]

theorem ViewOk.filed_stored (hok : ViewOk V mmaps) (pid : UInt32) (a : UInt64) {id : MmapId}
    (h : V.filed pid a = some id) : ∃ m, mmaps id = some m := by
  rw [View.filed_eq_find] at h
  obtain ⟨m, hm, -⟩ := hok.mmappings_stored pid _ (KeyMap.mem_of_find h)
  exact ⟨m, hm⟩

theorem ViewOk.mmappings_keys (hok : ViewOk V mmaps) (pid : UInt32) :
    ((V.mmappings pid).map Prod.fst).Nodup := by
  cases hx : V pid with
  | none =>
    rw [View.mmappings, hx]
    exact List.nodup_nil
  | some x =>
    rw [View.mmappings, hx]
    exact (hok.sorted pid x hx).nodup_keys addrLt_strictOrder

open Classical in
theorem ViewOk.fork_table (hok : ViewOk V mmaps) (hatt : V.Attaches pid par)
    (hcircle : (V.known pid par).mmappings par ≠ [] →
      ¬ ((V.known pid par).link pid par).StrictlyBelow pid pid) (j : UInt32) :
    (V.Below pid j → (V.fork pid par).table mmaps j = (V.table mmaps par).overlay (V.table mmaps j)) ∧
      (¬ V.Below pid j → (V.fork pid par).table mmaps j = V.table mmaps j) := by
  have hok₁ : ViewOk (V.known pid par) mmaps := hok.ensure.ensure
  have hmm : (V.known pid par).mmappings par = V.mmappings par := by
    rw [View.known, View.mmappings_ensure, View.mmappings_ensure]
  have hknown : ∀ j a, (V.known pid par).filed j a = V.filed j a := by
    intro j a
    rw [View.known, View.filed_ensure, View.filed_ensure]
  have hfiled := @View.filed_handDownAll pid ((V.known pid par).link pid par) _
    (hok₁.mmappings_keys par) j
  obtain ⟨x, hx⟩ := View.ensure_some (V.ensure par) pid
  have hx : V.known pid par pid = some x := hx
  have hy : ∃ y, V.known pid par par = some y := by
    obtain ⟨y, hy⟩ := View.ensure_some V par
    exact ⟨y, by rw [View.known, View.ensure_other hatt.1.symm, hy]⟩
  obtain ⟨y, hy⟩ := hy
  rw [View.fork_of_attaches hatt, View.attach]
  cases hkvs : (V.known pid par).mmappings par with
  | nil =>
    have hsame : ∀ a, (((V.known pid par).link pid par).handDownAll pid []).filed j a = V.filed j a := by
      intro a
      rw [View.handDownAll, List.foldl_nil, View.filed_link, hknown]
    have hempty : ∀ a, V.table mmaps par a = none := by
      intro a
      rw [View.table, View.filed_eq_find, ← hmm, hkvs]
      rfl
    refine ⟨fun _ => funext fun a => ?_, fun _ => funext fun a => ?_⟩
    · rw [View.table, hsame, Table.overlay, hempty, Option.none_or, View.table]
    · rw [View.table, hsame, View.table]
  | cons kv kvs =>
    have hno := hcircle (by rw [hkvs]; exact List.cons_ne_nil kv kvs)
    have hbelow : ((V.known pid par).link pid par).Below pid j ↔ V.Below pid j := by
      rw [View.below_link_iff hy hatt.1 hno, View.known_sameLinks.below]
    rw [← hkvs]
    refine ⟨fun hj => funext fun a => ?_, fun hj => funext fun a => ?_⟩
    · have hsome : (((V.known pid par).link pid par) j).isSome = true := by
        have hold : ((V.known pid par) j).isSome = true := by
          refine hok₁.below_known (show (V.known pid par pid).isSome = true by rw [hx]; rfl) ?_
          rwa [View.known_sameLinks.below]
        rw [View.link, View.change_isSome, View.change_isSome, hold]
      obtain ⟨z, hz⟩ := Option.isSome_iff_exists.mp hsome
      rw [View.table, hfiled, if_pos (hbelow.mpr hj), hz, Option.bind_some, View.filed_link, hknown, hmm,
        ← View.filed_eq_find, View.table_overlay fun id => hok.filed_stored par a]
      rfl
    · rw [View.table, hfiled, if_neg fun hc => hj (hbelow.mp hc), View.filed_link, hknown, View.table]

theorem View.comm_of_leaves {leader : Bool} (h : V.Leaves pid leader) :
    V.comm pid leader = V.disassociate pid := by
  obtain ⟨hlead, x, hx, hvalid, hforked⟩ := h
  rw [View.comm, hx]
  simp [hlead, hvalid, hforked]

open Classical in
/-- All mappings of the process are kept or dropped. -/
theorem ViewOk.filed_leave {leader : Bool} (hok : ViewOk V mmaps) (hleaves : V.Leaves pid leader)
    (j : UInt32) (a : UInt64) :
    (V.Below pid j → (V.comm pid leader).filed j a =
      if j = pid then V.kept pid a else (V.kept pid a).or (V.filed j a)) ∧
    (¬ V.Below pid j → (V.comm pid leader).filed j a = V.filed j a) := by
  have hcomm := View.comm_of_leaves hleaves
  obtain ⟨-, x, hx, -, hforked⟩ := hleaves
  have hsome : V.parent pid ≠ none := by
    rw [ne_eq, hok.parent_none_iff hx, hforked]
    exact Bool.noConfusion
  obtain ⟨par, hpar⟩ := Option.ne_none_iff_exists'.mp hsome
  have hlinks : View.SameLinks V (V.change pid fun x => { x with valid := true }) := View.setValid_sameLinks
  have hflags : (V.change pid fun x => { x with valid := true }).fromParent pid a = V.fromParent pid a := by
    rw [View.fromParent, View.fromParent, View.change, Function.update_self, hx]
    rfl
  have hmap : ∀ id : MmapId, (((V.change pid fun x => { x with valid := true }) j).map fun _ => id) =
      (V j).map fun _ => id := by
    intro id
    by_cases hj : j = pid
    · rw [hj, View.change_of_some hx, Function.update_self, hx]
      rfl
    · rw [View.change, Function.update_of_ne hj]
  have hfiled := View.filed_keepOrDrop_all (V := V.change pid fun x => { x with valid := true })
    (hok.mmappings_keys pid) (by rw [View.change_isSome, hx]; rfl) j a
  have hunlink : (V.keepOwn pid).parent pid = some par := by rw [View.keepOwn_sameLinks.parent, hpar]
  rw [View.filed_change (fun _ => by rfl), hflags, hlinks.below, ← View.keepOwn] at hfiled
  rw [hcomm, View.disassociate, ← View.keepOwn, View.filed_unlink hunlink, hfiled, View.kept,
    View.filed_eq_find V pid]
  simp only [hmap]
  cases hfind : KeyMap.find a (V.mmappings pid) with
  | none =>
    have hnone : V.filed pid a = none := by rw [View.filed_eq_find, hfind]
    refine ⟨fun _ => ?_, fun _ => rfl⟩
    by_cases hj : j = pid
    · subst hj
      simp [hnone]
    · simp [hj]
  | some id =>
    refine ⟨fun hbelow => ?_, fun hbelow => ?_⟩
    · have hsome : (V pid).isSome = true := by rw [hx]; rfl
      have hknown := hok.below_known hsome hbelow
      obtain ⟨z, hz⟩ := Option.isSome_iff_exists.mp hknown
      simp only [Option.elim, hz, hbelow, if_true, Option.map_some]
      split_ifs <;> simp
    · have hj : j ≠ pid := fun heq => hbelow (View.below_iff.mpr (Or.inl heq))
      simp [hj, hbelow]

end Tables

/-- A known mapping of the same name and start has the end, the page offset and the file name that the
record tells, no mapping of a lower start has an address of the new range, the mapping at the start
reaches no further than it, and those below the process have none at the start, or have the known one
of their own. -/
structure MapFits (s : OperfState) (e : MmapEvent) : Prop where
  plain : e.Plain
  known : ∀ id m, knownMapping s (opBasename e.filename) e.start = some id → s.procs.mmaps id = some m →
    m.endAddr = (mmapOf e).endAddr ∧ m.pgoff = e.pgoff ∧ m.filename = e.filename
  lower : ∀ j a m, s.procs.view.Below e.pid j → a < e.start → s.procs.view.table s.procs.mmaps j a = some m →
    ∀ ip, e.Spans ip → ¬ m.Covers ip
  tail : ∀ j m, s.procs.view.Below e.pid j → s.procs.view.table s.procs.mmaps j e.start = some m →
    ∀ ip, m.Covers ip → e.Spans ip
  received : ∀ f, s.procs.view.StrictlyBelow e.pid f →
    s.procs.view.table s.procs.mmaps f e.start = none ∨
      ∃ id, knownMapping s (opBasename e.filename) e.start = some id ∧
        s.procs.view.keptTable s.procs.mmaps f e.start = s.procs.mmaps id

/-- A record keeps what is in force where a search by address finds it. -/
def AttributesCleanly (s : OperfState) (hist : List Heard) : Event → Prop
  | .mmap e => e.misc &&& perfRecordMiscKernel = 0 → MapFits s e
  | .fork f => s.procs.view.Attaches f.pid f.ppid →
      ForkFits s.procs.view s.procs.mmaps hist f.pid f.ppid
  | .comm c => s.procs.view.Leaves c.pid (c.pid == c.tid) → LeaveFits s.procs.view s.procs.mmaps c.pid
  | _ => True

/-- The mapping taken for the record is right for it. -/
theorem MapFits.carries (h : MapFits s e)
    (hm : (eventMapping s e).1.procs.mmaps (eventMapping s e).2 = some m) : Carries m e := by
  have hnew := h.plain.carries
  cases hknown : knownMapping s (opBasename e.filename) e.start with
  | none =>
    obtain ⟨images, heq⟩ := eventMapping_new hknown
    have hmade : mmapOf e = m := by simpa [heq, OperfState.setProcs, Processes.newMmap] using hm
    rwa [← hmade]
  | some id =>
    rw [eventMapping_known hknown] at hm
    obtain ⟨m', hm', -, hstart⟩ := knownMapping_some hknown
    cases hm.symm.trans hm'
    obtain ⟨hend, hpgoff, hname⟩ := h.known id m hknown hm
    have hcovers : ∀ ip, m.Covers ip ↔ (mmapOf e).Covers ip := by
      intro ip
      rw [OperfMmap.Covers, OperfMmap.Covers, hstart, hend]
      rfl
    refine ⟨fun ip => (hcovers ip).trans (hnew.covers_iff ip), fun hlen => ⟨hstart, ?_, hpgoff, hname⟩⟩
    rw [hend]
    exact (hnew.shows hlen).len

/-- A mapping that a process has of its own already may be handed down to it. -/
theorem ViewOk.receptive (hok : ViewOk V mmaps) {f : UInt32}
    (h : V.table mmaps f a = none ∨ V.keptTable mmaps f a = some m) : Receptive V mmaps f a m := by
  intro x hx
  have hfiled : V.filed f a = KeyMap.find a x.mmappings := View.filed_of_some hx a
  rcases h with hnone | hkept
  · refine Or.inl ?_
    rw [← hfiled]
    cases hfile : V.filed f a with
    | none => rfl
    | some id =>
      obtain ⟨m, hm⟩ := hok.filed_stored f a hfile
      rw [View.table, hfile, Option.bind_some, hm] at hnone
      cases hnone
  · rw [View.keptTable, View.kept] at hkept
    split_ifs at hkept with hflag
    · cases hkept
    · rw [View.fromParent, hx] at hflag
      rw [hfiled] at hkept
      exact Or.inr ⟨Bool.not_eq_true _ |>.mp hflag, hkept⟩

theorem ViewOk.table_mem (hok : ViewOk V mmaps) {kv : UInt64 × MmapId} (h : kv ∈ V.mmappings pid)
    (hm : mmaps kv.2 = some m) : V.table mmaps pid kv.1 = some m := by
  cases hx : V pid with
  | none =>
    rw [View.mmappings, hx] at h
    cases h
  | some x =>
    rw [View.mmappings, hx] at h
    rw [View.table, View.filed_of_some hx,
      (KeyMap.find_eq_some_iff addrLt_strictOrder (hok.sorted pid x hx)).mpr h, Option.bind_some, hm]

/-- Such a record hands down cleanly. -/
theorem AttributesCleanly.handsDown {hist : List Heard} {e : Event} (hs : TreeOk s)
    (h : AttributesCleanly s hist e) : HandsDownCleanly s e := by
  cases e with
  | mmap e =>
    intro hu m hm f hf
    refine hs.view.receptive (((h hu).received f hf).imp_right ?_)
    rintro ⟨id, hknown, hkept⟩
    rw [eventMapping_known hknown] at hm
    rw [hkept, hm]
  | fork f =>
    intro hatt kv hkv m hm j hj
    exact hs.view.receptive ((h hatt).received j hj kv.1 m (hs.view.table_mem hkv hm))
  | comm c =>
    intro hleaves kv hkv hflag m hm f hf
    refine hs.view.receptive (Or.inr (h hleaves f hf kv.1 m ?_))
    rw [View.keptTable, View.kept, hflag]
    exact hs.view.table_mem hkv hm
  | sample _ => trivial
  | throttle _ => trivial
  | lost _ => trivial
  | exit => trivial
  | other _ => trivial

theorem ViewOk.table_mono {mmaps' : MmapId → Option OperfMmap} (hok : ViewOk V mmaps)
    (hmm : ∀ i m, mmaps i = some m → mmaps' i = some m) (pid : UInt32) :
    V.table mmaps' pid = V.table mmaps pid := by
  funext a
  rw [View.table, View.table]
  cases hf : V.filed pid a with
  | none => rfl
  | some id =>
    obtain ⟨m, hm⟩ := hok.filed_stored pid a hf
    rw [Option.bind_some, Option.bind_some, hm, hmm id m hm]

theorem View.comm_of_not_leaves {leader : Bool} (h : ¬ V.Leaves pid leader) (j : UInt32) (a : UInt64) :
    (V.comm pid leader).filed j a = V.filed j a := by
  unfold View.comm
  split
  · rename_i hnew
    exact View.filed_create hnew j a
  · rename_i x hx
    split_ifs with hvalid hforked
    · rw [Bool.and_eq_true, Bool.not_eq_true'] at hvalid
      exact (h ⟨hvalid.2, x, hx, hvalid.1, hforked⟩).elim
    · exact View.filed_change (fun _ => by rfl) j a
    · rfl

/-- What a process keeps is its own. -/
theorem Owned.keptTable_eq {own : Own} (h : Owned V mmaps own) (pid : UInt32) :
    V.keptTable mmaps pid = own pid := by
  funext a
  cases hx : V pid with
  | none =>
    rw [h.unknown pid hx, View.keptTable, View.kept, View.filed_of_none hx]
    split_ifs <;> rfl
  | some x =>
    have hentry := h.entry pid x hx
    have hflag : V.fromParent pid a = x.mmappingsFromParent a := by
      rw [View.fromParent, hx]
      rfl
    rw [View.keptTable, View.kept, hflag, View.filed_of_some hx]
    split_ifs with hparent
    · exact ((hentry.flag a).mp hparent).2.symm
    · cases hfind : KeyMap.find a x.mmappings with
      | none => exact (hentry.own_of_find_none hfind).symm
      | some id =>
        obtain ⟨m, hown⟩ := hentry.flag_false (by rw [hfind]; rfl) (Bool.not_eq_true _ |>.mp hparent)
        rw [hown, ← hfind]
        exact hentry.kept a m hown

theorem Owned.table_of_own {own : Own} (h : Owned V mmaps own) (hown : own pid a = some m) :
    V.table mmaps pid a = some m := by
  rw [← h.keptTable_eq] at hown
  exact View.table_of_kept hown

/-- One record, and what the processes have received themselves. -/
theorem followsOwn_after {hist : List Heard} {own : Own} {e : Event} (hs : TreeOk s)
    (hown : Owned s.procs.view s.procs.mmaps own) (hfollows : FollowsOwn own hist)
    (hclean : AttributesCleanly s hist e) : FollowsOwn (ownAfter s own e) (heardAfter s hist e) := by
  cases e with
  | mmap e =>
    rw [ownAfter, heardAfter]
    split_ifs with hu
    · have hfits := hclean hu
      obtain ⟨m, hm, -⟩ := (eventMapping_made hs.fresh e).made
      have hcarries := hfits.carries hm
      have hself : s.procs.view.Below e.pid e.pid := Relation.ReflTransGen.refl
      intro j ip
      by_cases hj : j = e.pid
      · subst hj
        have htable : Function.update (own e.pid) e.start (some m) =
            (Table.single e.start m).overlay (own e.pid) := by
          funext a
          by_cases ha : a = e.start
          · rw [ha, Function.update_self, Table.overlay, Table.single_self, Option.some_or]
          · rw [Function.update_of_ne ha, Table.overlay, Table.single_ne ha, Option.none_or]
        rw [hm, Function.update_self, htable]
        by_cases hin : e.Spans ip
        · rw [newest_cons_pos (c := ⟨e, s.procs.view.StrictlyBelow e.pid⟩)
            (P := fun c => c.record.pid = e.pid) ⟨rfl, hin⟩]
          exact FoundFor.inside hcarries hin fun a m' hlt hm' =>
            hfits.lower e.pid a m' hself hlt (hown.table_of_own hm') ip hin
        · rw [newest_cons_neg fun hc => hin hc.2]
          exact (hfollows e.pid ip).outside hcarries hin (fun _ he => newest_spans he) fun m' hm' hcov =>
            hfits.tail e.pid m' hself (hown.table_of_own hm') ip hcov
      · rw [Function.update_of_ne hj, newest_cons_neg fun hc => hj hc.1.symm]
        exact hfollows j ip
    · exact hfollows
  | fork f =>
    intro j ip
    rw [heardAfter, newest_map (fun _ => by rfl) fun _ => Iff.rfl]
    exact hfollows j ip
  | comm c =>
    intro j ip
    rw [heardAfter, newest_map (fun _ => by rfl) fun _ => Iff.rfl]
    exact hfollows j ip
  | sample _ => exact hfollows
  | throttle _ => exact hfollows
  | lost _ => exact hfollows
  | exit => exact hfollows
  | other _ => exact hfollows

/-- One record. -/
theorem processRecord_follows {rc : Int} {hist : List Heard} {e : Event} (he : ProcessRecord e)
    (hs : TreeOk s) (hfollows : FollowsRecords s.procs.view s.procs.mmaps hist) {own : Own}
    (hown : Owned s.procs.view s.procs.mmaps own) (hkept : FollowsOwn own hist)
    (h : opWriteEvent cfg env s e = some (rc, s')) (hclean : AttributesCleanly s hist e) :
    FollowsRecords s'.procs.view s'.procs.mmaps (heardAfter s hist e) := by
  obtain ⟨rfl, hstep⟩ := processRecord_step he hs h
  rw [hstep.view, hstep.mmaps]
  cases e with
  | fork f =>
    simp only [opWriteEvent, Option.map_eq_some_iff, Prod.mk.injEq] at h
    obtain ⟨s₁, h, -, -⟩ := h
    by_cases hatt : s.procs.view.Attaches f.pid f.ppid
    · have htable := hs.view.fork_table hatt (handleForkEvent_not_circular hs h hatt)
      exact hfollows.fork hatt (fun j => (htable j).1) (fun j => (htable j).2) (hclean hatt)
    · intro j ip
      have hsame : (recordView s (.fork f)).table s.procs.mmaps j = s.procs.view.table s.procs.mmaps j := by
        funext a
        rw [recordView, View.fork_of_not_attaches hatt, View.table, View.filed_ensure, View.table]
      have hmm : recordMmaps s (.fork f) = s.procs.mmaps := rfl
      rw [hmm, hsame, heardAfter,
        newest_map (Q := Heard.Of j) (fun _ => by rfl) fun c => by simp [Heard.Of, hatt]]
      exact hfollows j ip
  | comm c =>
    by_cases hleaves : s.procs.view.Leaves c.pid (c.pid == c.tid)
    · have hfiled := hs.view.filed_leave hleaves
      refine hfollows.leave hleaves (funext fun a => ?_) (fun j hj hbelow => funext fun a => ?_)
        (fun j hbelow => funext fun a => ?_) (fun ip => ?_) (hclean hleaves)
      · rw [View.table, (hfiled c.pid a).1 (View.below_iff.mpr (Or.inl rfl)), if_pos rfl, View.keptTable]
      · rw [View.table, (hfiled j a).1 hbelow, if_neg hj, View.table_overlay fun id hid => ?_]
        · rfl
        · rw [View.kept] at hid
          split_ifs at hid
          exact hs.view.filed_stored c.pid a hid
      · rw [View.table, (hfiled j a).2 hbelow, View.table]
      · rw [hown.keptTable_eq]
        exact hkept c.pid ip
    · intro j ip
      have hsame : (recordView s (.comm c)).table s.procs.mmaps j = s.procs.view.table s.procs.mmaps j := by
        funext a
        rw [recordView, View.table, View.comm_of_not_leaves hleaves, View.table]
      have hmm : recordMmaps s (.comm c) = s.procs.mmaps := rfl
      rw [hmm, hsame, heardAfter,
        newest_map (Q := Heard.Of j) (fun _ => by rfl) fun c => by simp [Heard.Of, hleaves]]
      exact hfollows j ip
  | mmap e =>
    have hmade := eventMapping_made hs.fresh e
    have hok := hs.view.mono hmade.kept
    have htable := hs.view.table_mono hmade.kept
    have hfollows := hfollows.congr htable
    rw [recordView, recordMmaps, heardAfter]
    split_ifs with hu
    · obtain ⟨m, hm, -⟩ := hmade.made
      have hknown : ∀ j, s.procs.view.StrictlyBelow e.pid j → (s.procs.view j).isSome = true := by
        intro j hj
        obtain ⟨c, hc, -⟩ := View.strictlyBelow_iff.mp hj
        refine hok.below_known ?_ (View.below_iff.mpr (Or.inr hj))
        cases hx : s.procs.view e.pid with
        | none =>
          rw [View.children, hx] at hc
          cases hc
        | some x => rfl
      have hfits := hclean hu
      refine hfollows.mmap hm hknown (hfits.carries hm) (fun j a m' hj hlt hm' ip hin => ?_)
        fun j m' hj hm' ip hcov => ?_
      · rw [htable] at hm'
        exact hfits.lower j a m' hj hlt hm' ip hin
      · rw [htable] at hm'
        exact hfits.tail j m' hj hm' ip hcov
    · exact hfollows
  | sample _ => exact he.elim
  | throttle _ => exact he.elim
  | lost _ => exact he.elim
  | exit => exact he.elim
  | other _ => exact he.elim

/-- No mapping of the hypervisor. -/
def UserMaps (s : OperfState) : Prop := ∀ id m, s.procs.mmaps id = some m → m.isHypervisor = false

theorem processRecord_userMaps {rc : Int} {e : Event} (he : ProcessRecord e) (hs : TreeOk s)
    (huser : UserMaps s) (h : opWriteEvent cfg env s e = some (rc, s')) : UserMaps s' := by
  obtain ⟨rfl, hstep⟩ := processRecord_step he hs h
  intro id m hm
  rw [hstep.mmaps] at hm
  cases e with
  | mmap e =>
    rw [recordMmaps] at hm
    cases hknown : knownMapping s (opBasename e.filename) e.start with
    | some i =>
      rw [eventMapping_known hknown] at hm
      exact huser id m hm
    | none =>
      obtain ⟨images, heq⟩ := eventMapping_new hknown
      rw [heq] at hm
      simp only [OperfState.setProcs, Processes.newMmap] at hm
      split_ifs at hm
      · cases hm
        rfl
      · exact huser id m hm
  | fork f => exact huser id m hm
  | comm c => exact huser id m hm
  | sample _ => exact he.elim
  | throttle _ => exact he.elim
  | lost _ => exact he.elim
  | exit => exact he.elim
  | other _ => exact he.elim

theorem find?_mapM {A B : Type} {f : A → Option B} {q : B → Bool} {xs : List A} {ys : List B}
    (h : xs.mapM f = some ys) : ys.find? q = (xs.find? fun x => (f x).any q).bind f := by
  induction xs generalizing ys with
  | nil =>
    cases h
    rfl
  | cons x xs ih =>
    rw [List.mapM_cons, Option.bind_eq_bind, Option.bind_eq_some_iff] at h
    obtain ⟨y, hy, h⟩ := h
    rw [Option.bind_eq_bind, Option.bind_eq_some_iff] at h
    obtain ⟨ys', hys, h⟩ := h
    cases h
    cases hq : q y with
    | true => rw [List.find?_cons_of_pos hq, List.find?_cons_of_pos (by simp [hy, hq]), Option.bind_some, hy]
    | false =>
      rw [List.find?_cons_of_neg (by simp [hq]), List.find?_cons_of_neg (by simp [hy, hq])]
      exact ih hys

/-- What a search has to return for the most recent record. -/
def AttributedTo : Option MmapEvent → Option OperfMmap → Prop
  | none, r => r = none
  | some e, r => ∃ m, r = some m ∧ Shows m e

/-- For every process and every address the search returns the mapping of the most recent record. -/
def AttributesNewest (s : OperfState) (hist : List Heard) : Prop :=
  ∀ pid p, s.procs.find pid = some p → ∀ ip, ∃ r, s.procs.findMappingForSample p ip false = some r ∧
    AttributedTo (newest hist (Heard.Of pid) ip) r

theorem FollowsRecords.attributesNewest {hist : List Heard} (hs : TreeOk s) (huser : UserMaps s)
    (h : FollowsRecords s.procs.view s.procs.mmaps hist) : AttributesNewest s hist := by
  intro pid p hp ip
  have hview := Processes.view_of_find hp
  have hsorted : KeyMap.Sorted addrLt p.mmappings := hs.view.sorted pid p.ties hview
  have hstored : ∀ kv ∈ p.mmappings, ∃ m, s.procs.mmaps kv.2 = some m := by
    intro kv hkv
    obtain ⟨m, hm, -⟩ := hs.view.stored pid p.ties kv hview hkv
    exact ⟨m, hm⟩
  obtain ⟨ms, hms⟩ := mapM_some hstored
  have htable : ∀ a m, s.procs.view.table s.procs.mmaps pid a = some m ↔
      ∃ id, (a, id) ∈ p.mmappings ∧ s.procs.mmaps id = some m := by
    intro a m
    rw [View.table, View.filed_of_some hview, Option.bind_eq_some_iff]
    refine exists_congr fun id => and_congr_left' ?_
    exact KeyMap.find_eq_some_iff addrLt_strictOrder hsorted
  have hcovers : ∀ (kv : UInt64 × MmapId) m, s.procs.mmaps kv.2 = some m →
      (((s.procs.mmaps kv.2).any fun m =>
        decide (m.startAddr ≤ ip) && decide (ip ≤ m.endAddr) && m.isHypervisor == false) = true ↔
        m.Covers ip) := by
    intro kv m hm
    simp [OperfMmap.Covers, hm, huser kv.2 m hm]
  refine ⟨_, by rw [Processes.findMappingForSample, Processes.mappingsOf, hms]; rfl, ?_⟩
  rw [find?_mapM hms]
  have hfound := h pid ip
  cases hnew : newest hist (Heard.Of pid) ip with
  | none =>
    rw [hnew] at hfound
    rw [AttributedTo, List.find?_eq_none.mpr ?_, Option.bind_none]
    intro kv hkv hany
    obtain ⟨m, hm⟩ := hstored kv hkv
    exact hfound kv.1 m ((htable kv.1 m).mpr ⟨kv.2, hkv, hm⟩) ((hcovers kv m hm).mp hany)
  | some e =>
    rw [hnew] at hfound
    obtain ⟨⟨m, hm, hshows⟩, hleast⟩ := hfound
    obtain ⟨id, hmem, hid⟩ := (htable e.start m).mp hm
    have hin := (hshows.covers_iff ip).mpr (newest_spans hnew)
    refine ⟨m, ?_, hshows⟩
    rw [(KeyMap.find?_eq_some_iff_least addrLt_strictOrder hsorted (x := (e.start, id))).mpr ?_,
      Option.bind_some, hid]
    refine ⟨hmem, (hcovers (e.start, id) m hid).mpr hin, fun kv hkv hany => ?_⟩
    obtain ⟨m', hm'⟩ := hstored kv hkv
    rw [addrLt, decide_eq_false_iff_not]
    intro hlt
    exact hleast kv.1 m' hlt ((htable kv.1 m').mpr ⟨kv.2, hkv, hm'⟩) ((hcovers kv m' hm').mp hany)

def heardRun (cfg : Config n) (env : Env) (images : KernelImages) (es : List Event) :
    Option (OperfState × List Heard) :=
  tracedRun cfg env images heardAfter [] es

/-- In a run whose records all keep what is in force where a search finds it, every address of every
process is attributed to the most recent mapping that the process has received or inherited. -/
theorem samples_attributed_to_newest (cfg : Config n) (env : Env) (images : KernelImages)
    (es : List Event) (hes : ∀ e ∈ es, ProcessRecord e) (s : OperfState) (hist : List Heard)
    (hrun : heardRun cfg env images es = some (s, hist))
    (hclean : ∀ pre e, pre ++ [e] <+: es → ∀ s hist, heardRun cfg env images pre = some (s, hist) →
      AttributesCleanly s hist e) : AttributesNewest s hist := by
  have hinit : FollowsRecords (initialState images).procs.view (initialState images).procs.mmaps [] := by
    intro pid ip a m hm
    cases hm
  have hI := tracedRun_induction (C := AttributesCleanly)
    (I := fun s hist => TreeOk s ∧ UserMaps s ∧ FollowsRecords s.procs.view s.procs.mmaps hist ∧
      ∃ own, Owned s.procs.view s.procs.mmaps own ∧ FollowsOwn own hist)
    ⟨treeOk_init images, fun id m hm => (by cases hm), hinit, fun _ _ => none,
      ⟨fun pid x hx => (by cases hx), fun _ _ _ => rfl⟩, fun pid ip a m hm => (by cases hm)⟩
    (fun s hist e rc s' he ⟨hs, huser, hfollows, own, hown, hkept⟩ hone hstep =>
      ⟨(processRecord_step he hs hstep).2.ok, processRecord_userMaps he hs huser hstep,
        processRecord_follows he hs hfollows hown hkept hstep hone, ownAfter s own e,
        processRecord_owned he hs hown hstep (hone.handsDown hs), followsOwn_after hs hown hkept hone⟩)
    hes hrun hclean
  exact hI.2.2.1.attributesNewest hI.1 hI.2.1

/-- The mappings of a process, in the order of their starts. -/
def mappingList (t : Processes) (pid : UInt32) : List (UInt64 × OperfMmap) :=
  (((t.find pid).map (·.mmappings)).getD []).filterMap fun kv => (t.mmaps kv.2).map fun m => (kv.1, m)

theorem mem_mappingList (h : t.view.table t.mmaps pid a = some m) : (a, m) ∈ mappingList t pid := by
  obtain ⟨id, hfiled, hm⟩ := Option.bind_eq_some_iff.mp h
  obtain ⟨x, hx, hfind⟩ := Option.bind_eq_some_iff.mp hfiled
  obtain ⟨p, hp, rfl⟩ := Processes.view_eq_some_iff.mp hx
  rw [mappingList, hp]
  exact List.mem_filterMap.mpr ⟨(a, id), KeyMap.mem_of_find hfind, by rw [hm]; rfl⟩

/-- The process has no children and no mapping known by that name and start, and what it has starts
above the record or ends below it. -/
def mapsAside (s : OperfState) (e : MmapEvent) : Bool :=
  (((s.procs.find e.pid).map (·.forkedProcesses)).getD []).isEmpty &&
    (knownMapping s (opBasename e.filename) e.start).isNone &&
    (mappingList s.procs e.pid).all fun kv =>
      decide (e.start < kv.1) || decide (kv.1 < e.start) && decide (kv.2.endAddr < e.start)

theorem MapFits.of_aside (hplain : e.Plain) (h : mapsAside s e = true) : MapFits s e := by
  rw [mapsAside, Bool.and_eq_true, Bool.and_eq_true, List.isEmpty_iff, Option.isNone_iff_eq_none,
    List.all_eq_true] at h
  obtain ⟨⟨hchildren, hknown⟩, haside⟩ := h
  have hnone : ∀ {j}, ¬ s.procs.view.StrictlyBelow e.pid j :=
    View.not_strictlyBelow (View.children_of_find hchildren)
  have hself : ∀ j, s.procs.view.Below e.pid j → j = e.pid := fun j hj =>
    (View.below_iff.mp hj).resolve_right hnone
  have happart : ∀ a m, s.procs.view.table s.procs.mmaps e.pid a = some m →
      e.start < a ∨ a < e.start ∧ m.endAddr < e.start := by
    intro a m hm
    simpa using haside (a, m) (mem_mappingList hm)
  refine ⟨hplain, fun id m hid => ?_, fun j a m hj hlt hm ip hin hcov => ?_, fun j m hj hm ip hcov => ?_,
    fun f hf => (hnone hf).elim⟩
  · rw [hknown] at hid
    cases hid
  · rw [hself j hj] at hm
    rcases happart a m hm with habove | ⟨-, hend⟩
    · exact (UInt64.lt_irrefl a (UInt64.lt_trans hlt habove)).elim
    · have hge : e.start ≤ ip := UInt64.le_iff_toNat_le.mpr hin.1
      exact (UInt64.lt_irrefl _ (UInt64.lt_of_le_of_lt (UInt64.le_trans hge hcov.2) hend)).elim
  · rw [hself j hj] at hm
    rcases happart e.start m hm with hlt | ⟨hlt, -⟩
    · exact (UInt64.lt_irrefl _ hlt).elim
    · exact (UInt64.lt_irrefl _ hlt).elim

/-- A process that nothing is known of has nothing that what it gets could come before. -/
theorem ForkFits.of_unknown {hist : List Heard} (hnone : V pid = none) : ForkFits V mmaps hist pid par := by
  have hempty : ∀ j, V.Below pid j → ∀ a, V.table mmaps j a = none := by
    intro j hj a
    have hself : j = pid := by
      refine (View.below_iff.mp hj).resolve_right (View.not_strictlyBelow ?_)
      rw [View.children, hnone]
      rfl
    rw [hself, View.table, View.filed_of_none hnone, Option.bind_none]
  refine ⟨fun j hj a m _ => Or.inl (hempty j hj a), fun j hj ip e _ a m b m' _ _ hm' => ?_⟩
  rw [hempty j hj] at hm'
  cases hm'

/-- A process maps a file and another below it, over the beginning of the first. It forks, the new
process maps a file of its own, and executes another program. -/
def remapForkExec : List Event :=
  [.mmap ⟨perfRecordMiscUser, 10, 0x2000, 0x1000, 0, ['/', 'b']⟩,
    .mmap ⟨perfRecordMiscUser, 10, 0x1000, 0x1800, 0, ['/', 'c']⟩, .fork ⟨20, 10⟩,
    .mmap ⟨perfRecordMiscUser, 20, 0x5000, 0x1000, 0, ['/', 'd']⟩, .comm ⟨20, 20, ['d']⟩]

theorem samples_attributed_to_newest_exec : ∃ s hist,
    heardRun twoEvents quietEnv noVmlinux remapForkExec = some (s, hist) ∧ AttributesNewest s hist := by
  have hes : ∀ e ∈ remapForkExec, ProcessRecord e := by
    simp only [remapForkExec, List.mem_cons, List.not_mem_nil, or_false]
    rintro e (rfl | rfl | rfl | rfl | rfl) <;> trivial
  have hrun : (heardRun twoEvents quietEnv noVmlinux remapForkExec).isSome = true := by decide
  obtain ⟨⟨s, hist⟩, hrun⟩ := Option.isSome_iff_exists.mp hrun
  -- what the records of the run meet, each computed in the state before it
  have hsecond : (heardRun twoEvents quietEnv noVmlinux (remapForkExec.take 1)).map (fun sh =>
      mapsAside sh.1 ⟨perfRecordMiscUser, 10, 0x1000, 0x1800, 0, ['/', 'c']⟩) = some true := by
    decide
  have hthird : (heardRun twoEvents quietEnv noVmlinux (remapForkExec.take 2)).map (fun sh =>
      (sh.1.procs.find 20).isNone) = some true := by decide
  have hfourth : (heardRun twoEvents quietEnv noVmlinux (remapForkExec.take 3)).map (fun sh =>
      mapsAside sh.1 ⟨perfRecordMiscUser, 20, 0x5000, 0x1000, 0, ['/', 'd']⟩) = some true := by
    decide
  have hfifth : (heardRun twoEvents quietEnv noVmlinux (remapForkExec.take 4)).map (fun sh =>
      ((sh.1.procs.find 20).map (·.forkedProcesses)).getD []) = some [] := by decide
  refine ⟨s, hist, hrun, samples_attributed_to_newest twoEvents quietEnv noVmlinux _ hes s hist hrun ?_⟩
  intro pre e hpre s hist hso
  obtain ⟨rest, hrest⟩ := hpre
  match pre, hrest with
  | [], hrest =>
    cases hso
    cases hrest
    exact fun _ => .of_aside ⟨by decide, by decide, by decide⟩ (by decide)
  | [_], hrest =>
    simp only [remapForkExec, List.cons_append, List.nil_append, List.cons.injEq] at hrest
    obtain ⟨rfl, rfl, -⟩ := hrest
    rw [show remapForkExec.take 1 = [_] from rfl, hso, Option.map_some, Option.some_inj] at hsecond
    exact fun _ => .of_aside ⟨by decide, by decide, by decide⟩ hsecond
  | [_, _], hrest =>
    simp only [remapForkExec, List.cons_append, List.nil_append, List.cons.injEq] at hrest
    obtain ⟨rfl, rfl, rfl, -⟩ := hrest
    rw [show remapForkExec.take 2 = [_, _] from rfl, hso, Option.map_some, Option.some_inj,
      Option.isNone_iff_eq_none] at hthird
    exact fun _ => .of_unknown (by rw [Processes.view, hthird]; rfl)
  | [_, _, _], hrest =>
    simp only [remapForkExec, List.cons_append, List.nil_append, List.cons.injEq] at hrest
    obtain ⟨rfl, rfl, rfl, rfl, -⟩ := hrest
    rw [show remapForkExec.take 3 = [_, _, _] from rfl, hso, Option.map_some, Option.some_inj] at hfourth
    exact fun _ => .of_aside ⟨by decide, by decide, by decide⟩ hfourth
  | [_, _, _, _], hrest =>
    simp only [remapForkExec, List.cons_append, List.nil_append, List.cons.injEq] at hrest
    obtain ⟨rfl, rfl, rfl, rfl, rfl, -⟩ := hrest
    rw [show remapForkExec.take 4 = [_, _, _, _] from rfl, hso, Option.map_some, Option.some_inj] at hfifth
    exact fun _ f hf => (View.not_strictlyBelow (View.children_of_find hfifth) hf).elim
  | _ :: _ :: _ :: _ :: _ :: pre, hrest =>
    simp [remapForkExec] at hrest

/-- A heap that grows keeps the length it had first. -/
theorem grown_heap_not_found : ∃ s hist p e,
    heardRun twoEvents quietEnv noVmlinux
      [.mmap ⟨perfRecordMiscUser, 10, 0x1000, 0x1000, 0, ['[', 'h', ']']⟩,
        .mmap ⟨perfRecordMiscUser, 10, 0x1000, 0x2000, 0, ['[', 'h', ']']⟩] = some (s, hist) ∧
      s.procs.find 10 = some p ∧ newest hist (Heard.Of 10) 0x2800 = some e ∧
      s.procs.findMappingForSample p 0x2800 false = some none := by
  have hrun : ((heardRun twoEvents quietEnv noVmlinux
      [.mmap ⟨perfRecordMiscUser, 10, 0x1000, 0x1000, 0, ['[', 'h', ']']⟩,
        .mmap ⟨perfRecordMiscUser, 10, 0x1000, 0x2000, 0, ['[', 'h', ']']⟩]).bind fun sh =>
      (sh.1.procs.find 10).bind fun p => (sh.1.procs.findMappingForSample p 0x2800 false).map fun r =>
        (r.isNone, sh.2.map fun c => (c.record.pid, c.record.start, c.record.len))) =
      some (true, [(10, 0x1000, 0x2000), (10, 0x1000, 0x1000)]) := by decide
  obtain ⟨⟨s, hist⟩, hso, hrest⟩ := Option.bind_eq_some_iff.mp hrun
  obtain ⟨p, hp, hrest⟩ := Option.bind_eq_some_iff.mp hrest
  obtain ⟨r, hr, hrest⟩ := Option.map_eq_some_iff.mp hrest
  simp only [Prod.mk.injEq, Option.isNone_iff_eq_none] at hrest
  obtain ⟨rfl, hhist⟩ := hrest
  cases hist with
  | nil => cases hhist
  | cons c hist =>
    simp only [List.map_cons, List.cons.injEq, Prod.mk.injEq] at hhist
    obtain ⟨⟨hpid, hstart, hlen⟩, -⟩ := hhist
    have hspans : c.record.Spans 0x2800 := by
      rw [MmapEvent.Spans, hstart, hlen]
      decide
    exact ⟨s, c :: hist, p, c.record, hso, hp, newest_cons_pos ⟨Or.inl hpid, hspans⟩, hr⟩

end Oprofile.Operf
