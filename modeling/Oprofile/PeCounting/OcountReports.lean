import Oprofile.Library.Loops
import Oprofile.PeCounting.OcountRecord
import Mathlib.Data.List.Basic
import Mathlib.Tactic.Common

/-! The counts and ratios of a sequence of interval reports. -/
namespace Oprofile.PeCounting

open PeUtils (OperfEvent)

variable {more : UInt64 → UInt64 → Bool} {r : OcountRecord} {readings : Nat → OcountAccum}

/-- The sum over the counters of an event, among the first `m`. -/
def eventSum (n : Nat) (f : Nat → UInt64) (e : Nat) : Nat → UInt64
  | 0 => 0
  | m + 1 => if m % n = e then eventSum n f e m + f m else eventSum n f e m

/-- The sum of the first terms. -/
def upTo (f : Nat → UInt64) : Nat → UInt64
  | 0 => 0
  | k + 1 => upTo f k + f k

/-! ### What the loops of `output_results` do -/

theorem resetCounts_eq (r : OcountRecord) : resetCounts r =
    { r with
      accumCounts := fun i => if i < r.evts.length then { r.accumCounts i with count := 0 } else r.accumCounts i } := by
  have first (k : Nat) : (List.range k).foldl (fun r i =>
      { r with accumCounts := Function.update r.accumCounts i { r.accumCounts i with count := 0 } }) r =
      { r with
        accumCounts := fun i => if i < k then { r.accumCounts i with count := 0 } else r.accumCounts i } := by
    induction k with
    | zero => simp
    | succ k ih =>
      rw [List.range_succ, List.foldl_append, ih]
      simp only [List.foldl_cons, List.foldl_nil, Nat.lt_irrefl, if_false]
      rw [Vectors.update_first r.accumCounts (fun i => { r.accumCounts i with count := 0 })]
  exact first r.evts.length

theorem takeDifferences_eq (r : OcountRecord) : takeDifferences r =
    { r with
      prevAccumCounts := fun i => if i < r.evts.length then (r.accumCounts i).count else r.prevAccumCounts i
      accumCounts := fun i =>
        if i < r.evts.length then
          { r.accumCounts i with count := (r.accumCounts i).count - r.prevAccumCounts i }
        else r.accumCounts i } := by
  have first (k : Nat) : (List.range k).foldl (fun r i =>
      let realAccum := r.accumCounts i
      { r with
        prevAccumCounts := Function.update r.prevAccumCounts i realAccum.count
        accumCounts := Function.update r.accumCounts i
          { realAccum with count := realAccum.count - r.prevAccumCounts i } }) r =
      { r with
        prevAccumCounts := fun i => if i < k then (r.accumCounts i).count else r.prevAccumCounts i
        accumCounts := fun i =>
          if i < k then { r.accumCounts i with count := (r.accumCounts i).count - r.prevAccumCounts i }
          else r.accumCounts i } := by
    induction k with
    | zero => simp
    | succ k ih =>
      rw [List.range_succ, List.foldl_append, ih]
      simp only [List.foldl_cons, List.foldl_nil, Nat.lt_irrefl, if_false]
      rw [Vectors.update_first r.accumCounts
          (fun i => { r.accumCounts i with count := (r.accumCounts i).count - r.prevAccumCounts i }),
        Vectors.update_first r.prevAccumCounts fun i => (r.accumCounts i).count]
  exact first r.evts.length

/-- Whether one of the first `m` counters asks for scaling. -/
def anyNeedsScaling (more : UInt64 → UInt64 → Bool) (readings : Nat → OcountAccum) (m : Nat) : Bool :=
  (List.range m).any fun c => needsScaling more (readings c)

theorem anyNeedsScaling_succ (m : Nat) :
    anyNeedsScaling more readings (m + 1) = (anyNeedsScaling more readings m || needsScaling more (readings m)) := by
  simp [anyNeedsScaling, List.range_succ]

/-- With separation the loop over the counters only looks for the need to scale. -/
theorem collect_separate (r : OcountRecord) (m : Nat) :
    (List.range m).foldl (collect more readings true) (r, false) = (r, anyNeedsScaling more readings m) := by
  induction m with
  | zero => rfl
  | succ m ih =>
    rw [List.range_succ, List.foldl_append, ih, anyNeedsScaling_succ]
    rfl

/-- Without it the readings of each event are added to what its accumulator holds. -/
theorem collect_aggregate (r : OcountRecord) (m : Nat) :
    (List.range m).foldl (collect more readings false) (r, false) =
      ({ r with
        accumCounts := fun i =>
          { count := (r.accumCounts i).count + eventSum r.evts.length (fun c => (readings c).count) i m
            enabledTime :=
              (r.accumCounts i).enabledTime + eventSum r.evts.length (fun c => (readings c).enabledTime) i m
            runningTime :=
              (r.accumCounts i).runningTime + eventSum r.evts.length (fun c => (readings c).runningTime) i m } },
        anyNeedsScaling more readings m) := by
  induction m with
  | zero => simp [eventSum, anyNeedsScaling]
  | succ m ih =>
    rw [List.range_succ, List.foldl_append, ih, anyNeedsScaling_succ]
    simp only [List.foldl_cons, List.foldl_nil, collect, Bool.not_false, if_true]
    congr 2
    funext i
    by_cases hi : i = m % r.evts.length
    · subst hi
      simp [eventSum, UInt64.add_assoc]
    · rw [Function.update_of_ne hi]
      simp [eventSum, Ne.symm hi]

/-- Aggregated lines show the accumulators as they are. -/
theorem resultLines_aggregate (r : OcountRecord) (scaled : Bool) :
    resultLines readings false scaled r =
      (r, (r.perfCounters.take r.evts.length).zipIdx.map fun c => (resultLine readings false scaled r c.2 c.1).2) := by
  have rounds (cs : List (OcountCounter × Nat)) (ls : List Line) :
      cs.foldl (addLine readings false scaled) (r, ls) =
        (r, ls ++ cs.map fun c => (resultLine readings false scaled r c.2 c.1).2) := by
    induction cs generalizing ls with
    | nil => simp
    | cons c cs ih =>
      have first : addLine readings false scaled (r, ls) c =
          (r, ls ++ [(resultLine readings false scaled r c.2 c.1).2]) := by simp [addLine, resultLine]
      rw [List.foldl_cons, first, ih, List.append_assoc]
      rfl
  exact (rounds _ []).trans (by rw [List.nil_append]; rfl)

/-- What a report with separation has read. -/
def noteReadings (r : OcountRecord) (readings : Nat → OcountAccum) (first m : Nat) : OcountRecord :=
  { r with
    prevAccumCounts := fun i => if first ≤ i ∧ i < first + m then (readings i).count else r.prevAccumCounts i }

/-- Lines with separation show a counter's own reading, and note it. -/
theorem resultLines_separate (r : OcountRecord) (scaled : Bool) (hr : r.withTimeInterval = true) :
    resultLines readings true scaled r =
      (noteReadings r readings 0 r.perfCounters.length,
        r.perfCounters.zipIdx.map fun c => (resultLine readings true scaled r c.2 c.1).2) := by
  have rounds (cs : List OcountCounter) (k : Nat) (r : OcountRecord) (hr : r.withTimeInterval = true)
      (ls : List Line) :
      (cs.zipIdx k).foldl (addLine readings true scaled) (r, ls) =
        (noteReadings r readings k cs.length,
          ls ++ (cs.zipIdx k).map fun c => (resultLine readings true scaled r c.2 c.1).2) := by
    induction cs generalizing k r ls with
    | nil =>
      have none (i : Nat) : ¬(k ≤ i ∧ i < k) := by omega
      simp only [List.zipIdx_nil, List.foldl_nil, List.map_nil, List.append_nil, noteReadings, List.length_nil,
        Nat.add_zero, none, if_false]
    | cons c cs ih =>
      have first : addLine readings true scaled (r, ls) (c, k) =
          ({ r with prevAccumCounts := Function.update r.prevAccumCounts k (readings k).count },
            ls ++ [(resultLine readings true scaled r k c).2]) := by simp [addLine, resultLine, hr]
      rw [List.zipIdx_cons, List.foldl_cons, first,
        ih (k + 1) { r with prevAccumCounts := Function.update r.prevAccumCounts k (readings k).count } hr]
      congr 1
      · unfold noteReadings
        congr 1
        funext i
        by_cases hi : i = k
        · subst hi
          simp
        · simp only [Function.update_of_ne hi]
          congr 1
          simp only [List.length_cons, eq_iff_iff]
          omega
      · rw [List.map_cons, List.append_assoc, List.singleton_append]
        congr 2
        apply List.map_congr_left
        -- the later lines read other places of the vector
        rintro ⟨c', i⟩ hmem
        have hi : k + 1 ≤ i := (List.mk_mem_zipIdx_iff_le_and_getElem?_sub.mp hmem).1
        have hne : i ≠ k := by omega
        simp [resultLine, hr, Function.update_of_ne hne]
  have all := rounds r.perfCounters 0 r hr []
  rw [List.nil_append] at all
  unfold resultLines
  simpa only [if_true, List.take_length] using all

/-! ### One report -/

/-- The accumulators of an interval report: the counts are reset, the times are not. -/
def accumulated (r : OcountRecord) (readings : Nat → OcountAccum) (e : Nat) : OcountAccum where
  count := eventSum r.evts.length (fun c => (readings c).count) e r.perfCounters.length
  enabledTime :=
    (r.accumCounts e).enabledTime +
      eventSum r.evts.length (fun c => (readings c).enabledTime) e r.perfCounters.length
  runningTime :=
    (r.accumCounts e).runningTime +
      eventSum r.evts.length (fun c => (readings c).runningTime) e r.perfCounters.length

theorem map_snd_zipIdx {α β : Type} (l : List α) (f : Nat → β) :
    (l.zipIdx.map fun c => f c.2) = (List.range l.length).map f := by
  have h := congrArg (List.map f) (List.zipIdx_map_snd 0 l)
  rwa [List.map_map, ← List.range_eq_range'] at h

/-- What the modes are compared by. -/
def Line.value (l : Line) : UInt64 × ℚ := (l.count, l.fractionTimeRunning)

theorem values_aggregate (r : OcountRecord) (scaled : Bool) (hlen : r.evts.length ≤ r.perfCounters.length) :
    (resultLines readings false scaled r).2.map Line.value =
      (List.range r.evts.length).map fun e =>
        ((r.accumCounts e).count, fractionTimeRunning scaled (r.accumCounts e)) := by
  have hvalue := map_snd_zipIdx (r.perfCounters.take r.evts.length) fun e =>
    ((r.accumCounts e).count, fractionTimeRunning scaled (r.accumCounts e))
  rw [List.length_take, Nat.min_eq_left hlen] at hvalue
  rw [resultLines_aggregate, List.map_map, ← hvalue]
  rfl

theorem values_separate (r : OcountRecord) (scaled : Bool) (hr : r.withTimeInterval = true) :
    (resultLines readings true scaled r).2.map Line.value =
      (List.range r.perfCounters.length).map fun c =>
        ((readings c).count - r.prevAccumCounts c, fractionTimeRunning scaled (readings c)) := by
  have hvalue := map_snd_zipIdx r.perfCounters fun c =>
    ((readings c).count - r.prevAccumCounts c, fractionTimeRunning scaled (readings c))
  rw [resultLines_separate r scaled hr, List.map_map, ← hvalue]
  simp only [Function.comp_def, resultLine, if_true, hr, Line.value]

/-- Where an aggregated interval report leaves the record. -/
structure Aggregated (r : OcountRecord) (readings : Nat → OcountAccum) (r' : OcountRecord) : Prop where
  evts : r'.evts = r.evts
  perfCounters : r'.perfCounters = r.perfCounters
  withTimeInterval : r'.withTimeInterval = true
  prev : ∀ e < r.evts.length, r'.prevAccumCounts e = (accumulated r readings e).count
  accum : ∀ e < r.evts.length, r'.accumCounts e =
    { accumulated r readings e with count := (accumulated r readings e).count - r.prevAccumCounts e }

variable (more readings) in
theorem outputResults_aggregate (hr : r.withTimeInterval = true) (hlen : r.evts.length ≤ r.perfCounters.length) :
    Aggregated r readings (outputResults more readings false r).1 ∧
      (outputResults more readings false r).2.map Line.value =
        (List.range r.evts.length).map fun e =>
          ((accumulated r readings e).count - r.prevAccumCounts e,
            fractionTimeRunning (anyNeedsScaling more readings r.perfCounters.length) (accumulated r readings e)) := by
  have loops : ∃ r', Aggregated r readings r' ∧ outputResults more readings false r =
      resultLines readings false (anyNeedsScaling more readings r.perfCounters.length) r' := by
    simp only [outputResults, hr, if_true, Bool.true_and, Bool.not_false, resetCounts_eq, collect_aggregate,
      takeDifferences_eq]
    refine ⟨_, ?_, rfl⟩
    refine ⟨rfl, rfl, rfl, ?_, ?_⟩
    · intro e he
      simp [he, accumulated]
    · intro e he
      simp [he, accumulated]
  obtain ⟨r', hagg, hout⟩ := loops
  rw [hout]
  refine ⟨?_, ?_⟩
  · rw [resultLines_aggregate]
    exact hagg
  · rw [values_aggregate r' _ (by rw [hagg.evts, hagg.perfCounters]; exact hlen), hagg.evts]
    apply List.map_congr_left
    intro e he
    rw [hagg.accum e (List.mem_range.mp he)]
    rfl

variable (more readings) in
theorem outputResults_separate (hr : r.withTimeInterval = true) :
    (outputResults more readings true r).1 =
        noteReadings { r with accumCounts := (resetCounts r).accumCounts } readings 0 r.perfCounters.length ∧
      (outputResults more readings true r).2.map Line.value =
        (List.range r.perfCounters.length).map fun c =>
          ((readings c).count - r.prevAccumCounts c,
            fractionTimeRunning (anyNeedsScaling more readings r.perfCounters.length) (readings c)) := by
  have loops : outputResults more readings true r =
      resultLines readings true (anyNeedsScaling more readings r.perfCounters.length)
        { r with accumCounts := (resetCounts r).accumCounts } := by
    simp only [outputResults, hr, if_true, Bool.true_and, Bool.not_true, Bool.false_eq_true, if_false,
      resetCounts_eq, collect_separate]
  rw [loops]
  exact ⟨congrArg Prod.fst (resultLines_separate { r with accumCounts := (resetCounts r).accumCounts } _ hr),
    values_separate { r with accumCounts := (resetCounts r).accumCounts } _ hr⟩

/-! ### A sequence of reports -/

/-- The readings of the counters, report after report; before the first one nothing was counted. -/
structure Readings (reading : Nat → Nat → OcountAccum) : Prop where
  zero : ∀ c, reading 0 c = ⟨0, 0, 0⟩
  count : ∀ k c, (reading k c).count ≤ (reading (k + 1) c).count
  enabledTime : ∀ k c, (reading k c).enabledTime ≤ (reading (k + 1) c).enabledTime
  runningTime : ∀ k c, (reading k c).runningTime ≤ (reading (k + 1) c).runningTime

/-- The record after some reports. -/
def afterReports (more : UInt64 → UInt64 → Bool) (reading : Nat → Nat → OcountAccum) (useSeparation : Bool)
    (r : OcountRecord) : Nat → OcountRecord
  | 0 => r
  | k + 1 => (outputResults more (reading (k + 1)) useSeparation (afterReports more reading useSeparation r k)).1

/-- The lines of the report after some others. -/
def report (more : UInt64 → UInt64 → Bool) (reading : Nat → Nat → OcountAccum) (useSeparation : Bool)
    (r : OcountRecord) (k : Nat) : List Line :=
  (outputResults more (reading (k + 1)) useSeparation (afterReports more reading useSeparation r k)).2

/-- A record as it is set up, with `n` events and `m` counters. -/
structure Opened (r : OcountRecord) (n m : Nat) : Prop where
  evts : r.evts.length = n
  perfCounters : r.perfCounters.length = m
  accumCounts : ∀ i, r.accumCounts i = ⟨0, 0, 0⟩
  prevAccumCounts : ∀ i, r.prevAccumCounts i = 0
  withTimeInterval : r.withTimeInterval = true
  enough : n ≤ m

section Reports

variable {reading : Nat → Nat → OcountAccum} {n m : Nat}

/-- After `k` aggregated reports: the counts of the last readings, the times of all of them. -/
structure AfterAggregated (reading : Nat → Nat → OcountAccum) (n m k : Nat) (r : OcountRecord) : Prop where
  evts : r.evts.length = n
  perfCounters : r.perfCounters.length = m
  withTimeInterval : r.withTimeInterval = true
  prev : ∀ e < n, r.prevAccumCounts e = eventSum n (fun c => (reading k c).count) e m
  enabled : ∀ e < n, (r.accumCounts e).enabledTime =
    upTo (fun j => eventSum n (fun c => (reading (j + 1) c).enabledTime) e m) k
  running : ∀ e < n, (r.accumCounts e).runningTime =
    upTo (fun j => eventSum n (fun c => (reading (j + 1) c).runningTime) e m) k

theorem eventSum_zero (n e m : Nat) : eventSum n (fun _ => 0) e m = 0 := by
  induction m with
  | zero => rfl
  | succ m ih =>
    unfold eventSum
    split <;> simp [ih]

variable (more) in
theorem afterAggregated (hopen : Opened r n m) (hread : Readings reading) (k : Nat) :
    AfterAggregated reading n m k (afterReports more reading false r k) := by
  induction k with
  | zero =>
    refine ⟨hopen.evts, hopen.perfCounters, hopen.withTimeInterval, ?_, ?_, ?_⟩
    · intro e _
      simp only [hread.zero, eventSum_zero]
      exact hopen.prevAccumCounts e
    · intro e _
      exact congrArg OcountAccum.enabledTime (hopen.accumCounts e)
    · intro e _
      exact congrArg OcountAccum.runningTime (hopen.accumCounts e)
  | succ k ih =>
    obtain ⟨hagg, -⟩ := outputResults_aggregate more (reading (k + 1)) ih.withTimeInterval
      (by rw [ih.evts, ih.perfCounters]; exact hopen.enough)
    refine ⟨?_, ?_, hagg.withTimeInterval, ?_, ?_, ?_⟩
    · exact (congrArg List.length hagg.evts).trans ih.evts
    · exact (congrArg List.length hagg.perfCounters).trans ih.perfCounters
    · intro e he
      refine (hagg.prev e (by rw [ih.evts]; exact he)).trans ?_
      rw [accumulated, ih.evts, ih.perfCounters]
    · intro e he
      refine (congrArg OcountAccum.enabledTime (hagg.accum e (by rw [ih.evts]; exact he))).trans ?_
      simp only [accumulated, ih.evts, ih.perfCounters, ih.enabled e he, upTo]
    · intro e he
      refine (congrArg OcountAccum.runningTime (hagg.accum e (by rw [ih.evts]; exact he))).trans ?_
      simp only [accumulated, ih.evts, ih.perfCounters, ih.running e he, upTo]

/-- After `k` reports with separation the counts of the last readings are noted. -/
structure AfterSeparate (reading : Nat → Nat → OcountAccum) (m k : Nat) (r : OcountRecord) : Prop where
  perfCounters : r.perfCounters.length = m
  withTimeInterval : r.withTimeInterval = true
  prev : ∀ c < m, r.prevAccumCounts c = (reading k c).count

variable (more) in
theorem afterSeparate (hopen : Opened r n m) (hread : Readings reading) (k : Nat) :
    AfterSeparate reading m k (afterReports more reading true r k) := by
  induction k with
  | zero =>
    refine ⟨hopen.perfCounters, hopen.withTimeInterval, ?_⟩
    intro c _
    rw [hread.zero]
    exact hopen.prevAccumCounts c
  | succ k ih =>
    obtain ⟨hnote, -⟩ := outputResults_separate more (reading (k + 1)) ih.withTimeInterval
    rw [afterReports, hnote]
    refine ⟨ih.perfCounters, ih.withTimeInterval, ?_⟩
    intro c hc
    have hin : 0 ≤ c ∧ c < 0 + (afterReports more reading true r k).perfCounters.length := by
      rw [ih.perfCounters]
      omega
    exact if_pos hin

/-- The accumulated times of an event. -/
def eventTimes (reading : Nat → Nat → OcountAccum) (n m k e : Nat) : OcountAccum where
  count := 0
  enabledTime := upTo (fun j => eventSum n (fun c => (reading (j + 1) c).enabledTime) e m) (k + 1)
  runningTime := upTo (fun j => eventSum n (fun c => (reading (j + 1) c).runningTime) e m) (k + 1)

theorem report_aggregated (hopen : Opened r n m) (hread : Readings reading) (k : Nat) :
    (report more reading false r k).map Line.value = (List.range n).map fun e =>
      (eventSum n (fun c => (reading (k + 1) c).count) e m - eventSum n (fun c => (reading k c).count) e m,
        fractionTimeRunning (anyNeedsScaling more (reading (k + 1)) m) (eventTimes reading n m k e)) := by
  have hbefore := afterAggregated more hopen hread k
  obtain ⟨-, hlines⟩ := outputResults_aggregate more (reading (k + 1)) hbefore.withTimeInterval
    (by rw [hbefore.evts, hbefore.perfCounters]; exact hopen.enough)
  rw [report, hlines, hbefore.evts]
  apply List.map_congr_left
  intro e he
  have he := List.mem_range.mp he
  simp only [accumulated, fractionTimeRunning, eventTimes, hbefore.evts, hbefore.perfCounters, hbefore.prev e he,
    hbefore.enabled e he, hbefore.running e he, upTo]

theorem report_separate (hopen : Opened r n m) (hread : Readings reading) (k : Nat) :
    (report more reading true r k).map Line.value = (List.range m).map fun c =>
      ((reading (k + 1) c).count - (reading k c).count,
        fractionTimeRunning (anyNeedsScaling more (reading (k + 1)) m) (reading (k + 1) c)) := by
  have hbefore := afterSeparate more hopen hread k
  obtain ⟨-, hlines⟩ := outputResults_separate more (reading (k + 1)) hbefore.withTimeInterval
  rw [report, hlines, hbefore.perfCounters]
  apply List.map_congr_left
  intro c hc
  rw [hbefore.prev c (List.mem_range.mp hc)]

end Reports

/-! ### Exact counts -/

/-- What the counters of an event counted between two readings, taken together. -/
def eventDifference (reading : Nat → Nat → OcountAccum) (n m k e : Nat) : Nat :=
  (((List.range m).filter (· % n = e)).map fun c =>
    (reading (k + 1) c).count.toNat - (reading k c).count.toNat).sum

/-- What they have counted altogether. -/
def eventReading (reading : Nat → Nat → OcountAccum) (n m k e : Nat) : Nat :=
  (((List.range m).filter (· % n = e)).map fun c => (reading k c).count.toNat).sum

/-- The count in a line of a report. -/
def countOf (lines : List Line) (i : Nat) : UInt64 := (lines.map Line.count).getD i 0

/-- Each report shows what was counted since the one before, and the reports add up to the reading. -/
structure ExactCounts (more : UInt64 → UInt64 → Bool) (reading : Nat → Nat → OcountAccum) (r : OcountRecord)
    (n m : Nat) : Prop where
  aggregated : ∀ k, (report more reading false r k).map Line.count =
    (List.range n).map fun e => UInt64.ofNat (eventDifference reading n m k e)
  aggregatedSum : ∀ k, ∀ e < n, upTo (fun j => countOf (report more reading false r j) e) k =
    UInt64.ofNat (eventReading reading n m k e)
  separate : ∀ k, (report more reading true r k).map Line.count =
    (List.range m).map fun c => UInt64.ofNat ((reading (k + 1) c).count.toNat - (reading k c).count.toNat)
  separateSum : ∀ k, ∀ c < m, upTo (fun j => countOf (report more reading true r j) c) k = (reading k c).count

section Exact

variable {reading : Nat → Nat → OcountAccum} {n m : Nat}

theorem eventSum_eq (f : Nat → UInt64) (e : Nat) :
    eventSum n f e m = UInt64.ofNat (((List.range m).filter (· % n = e)).map fun c => (f c).toNat).sum := by
  induction m with
  | zero => rfl
  | succ m ih =>
    rw [List.range_succ, List.filter_append, List.map_append, List.sum_append, UInt64.ofNat_add, ← ih, eventSum]
    by_cases h : m % n = e
    · simp [h]
    · simp [h]

theorem ofNat_difference (hread : Readings reading) (k c : Nat) :
    UInt64.ofNat ((reading (k + 1) c).count.toNat - (reading k c).count.toNat) =
      (reading (k + 1) c).count - (reading k c).count := by
  rw [UInt64.ofNat_sub (UInt64.le_iff_toNat_le.mp (hread.count k c)), UInt64.ofNat_toNat, UInt64.ofNat_toNat]

/-- The difference of the sums is the sum of the differences. -/
theorem eventSum_difference (hread : Readings reading) (k e : Nat) :
    eventSum n (fun c => (reading (k + 1) c).count) e m - eventSum n (fun c => (reading k c).count) e m =
      UInt64.ofNat (eventDifference reading n m k e) := by
  unfold eventDifference
  induction m with
  | zero => simp [eventSum]
  | succ m ih =>
    rw [List.range_succ, List.filter_append, List.map_append, List.sum_append, UInt64.ofNat_add, ← ih, eventSum,
      eventSum]
    by_cases h : m % n = e
    · have hone := ofNat_difference hread k m
      simp only [h, if_true, decide_true, List.filter_cons_of_pos, List.filter_nil, List.map_cons, List.map_nil,
        List.sum_cons, List.sum_nil, Nat.add_zero, hone]
      grind
    · simp [h]

theorem map_count (lines : List Line) : lines.map Line.count = (lines.map Line.value).map Prod.fst := by
  simp [Line.value, Function.comp_def]

theorem exactCounts {r : OcountRecord} (hopen : Opened r n m) (hread : Readings reading) :
    ExactCounts more reading r n m := by
  have aggregated (k : Nat) : (report more reading false r k).map Line.count =
      (List.range n).map fun e => UInt64.ofNat (eventDifference reading n m k e) := by
    rw [map_count, report_aggregated hopen hread, List.map_map]
    apply List.map_congr_left
    intro e _
    exact eventSum_difference hread k e
  have separate (k : Nat) : (report more reading true r k).map Line.count =
      (List.range m).map fun c => UInt64.ofNat ((reading (k + 1) c).count.toNat - (reading k c).count.toNat) := by
    rw [map_count, report_separate hopen hread, List.map_map]
    apply List.map_congr_left
    intro c _
    exact (ofNat_difference hread k c).symm
  refine ⟨aggregated, ?_, separate, ?_⟩
  · intro k e he
    rw [eventReading, ← eventSum_eq fun c => (reading k c).count]
    induction k with
    | zero => simp only [hread.zero, eventSum_zero, upTo]
    | succ k ih =>
      rw [upTo, ih, countOf, aggregated k]
      simp only [List.getD_eq_getElem?_getD, List.getElem?_map, List.getElem?_range he, Option.map_some,
        Option.getD_some]
      rw [← eventSum_difference hread k e]
      grind
  · intro k c hc
    induction k with
    | zero => simp only [hread.zero, upTo]
    | succ k ih =>
      rw [upTo, ih, countOf, separate k]
      simp only [List.getD_eq_getElem?_getD, List.getElem?_map, List.getElem?_range hc, Option.map_some,
        Option.getD_some]
      rw [ofNat_difference hread]
      grind

end Exact

/-! ### The same ratios in both modes -/

/-- In every report that needs scaling, the times of all reports so far have the ratio of the last readings. -/
def SteadyRatios (more : UInt64 → UInt64 → Bool) (reading : Nat → Nat → OcountAccum) (n : Nat) : Prop :=
  ∀ k, anyNeedsScaling more (reading (k + 1)) n = true → ∀ e < n,
    ((upTo (fun j => (reading (j + 1) e).runningTime) (k + 1)).toNat : ℚ) /
        (upTo (fun j => (reading (j + 1) e).enabledTime) (k + 1)).toNat =
      (reading (k + 1) e).runningTime.toNat / (reading (k + 1) e).enabledTime.toNat

/-- With one counter for each event the two modes differ in the accumulated times only. -/
theorem eventSum_single {n e : Nat} (f : Nat → UInt64) (he : e < n) : eventSum n f e n = f e := by
  have first (m : Nat) (hm : m ≤ n) : eventSum n f e m = if e < m then f e else 0 := by
    induction m with
    | zero => rfl
    | succ m ih =>
      rw [eventSum, ih (by omega), Nat.mod_eq_of_lt (by omega)]
      by_cases h : m = e
      · subst h
        simp
      · rw [if_neg h]
        congr 1
        simp only [eq_iff_iff]
        omega
  rw [first n (Nat.le_refl n), if_pos he]

theorem modes_agree_iff {reading : Nat → Nat → OcountAccum} {n : Nat} (hopen : Opened r n n)
    (hread : Readings reading) :
    (∀ k, (report more reading false r k).map Line.value = (report more reading true r k).map Line.value) ↔
      SteadyRatios more reading n := by
  have line (k : Nat) : (report more reading false r k).map Line.value = (report more reading true r k).map Line.value ↔
      ∀ e < n, fractionTimeRunning (anyNeedsScaling more (reading (k + 1)) n) (eventTimes reading n n k e) =
        fractionTimeRunning (anyNeedsScaling more (reading (k + 1)) n) (reading (k + 1) e) := by
    rw [report_aggregated hopen hread, report_separate hopen hread, List.map_inj_left]
    constructor
    · intro h e he
      exact congrArg Prod.snd (h e (List.mem_range.mpr he))
    · intro h e he
      have he := List.mem_range.mp he
      rw [h e he, eventSum_single _ he, eventSum_single _ he]
  have times (k e : Nat) (he : e < n) : eventTimes reading n n k e =
      ⟨0, upTo (fun j => (reading (j + 1) e).enabledTime) (k + 1),
        upTo (fun j => (reading (j + 1) e).runningTime) (k + 1)⟩ := by
    simp only [eventTimes, eventSum_single _ he]
  simp only [line]
  constructor
  · intro h k hscaled e he
    have hratio := h k e he
    rw [hscaled, times k e he] at hratio
    exact hratio
  · intro h k e he
    cases hscaled : anyNeedsScaling more (reading (k + 1)) n with
    | false => rfl
    | true =>
      rw [times k e he]
      exact h k hscaled e he

/-! ### Interval reports -/

/-- A record set up for counting over intervals, for each task or for each CPU. -/
inductive SetUp (evts : List OperfEvent) : OcountRecord → Prop
  | perTask (tasks : List Int32) (h : tasks ≠ []) : SetUp evts (doCountingPerTask evts tasks true)
  | perCpu (cpus : List Int32) (h : cpus ≠ []) : SetUp evts (doCountingPerCpu evts cpus true)

theorem length_counters {evts : List OperfEvent} (elements : List Int32) (counter : Int32 → OperfEvent → OcountCounter) :
    (elements.flatMap fun x => evts.map (counter x)).length = elements.length * evts.length := by
  induction elements with
  | nil => simp
  | cons x xs ih => simp [ih, Nat.succ_mul, Nat.add_comm]

theorem SetUp.opened {evts : List OperfEvent} (h : SetUp evts r) : Opened r evts.length r.perfCounters.length := by
  have enough {elements : List Int32} (hne : elements ≠ []) : evts.length ≤ elements.length * evts.length :=
    Nat.le_mul_of_pos_left _ (List.length_pos_of_ne_nil hne)
  cases h with
  | perTask tasks hne =>
    refine ⟨rfl, rfl, fun _ => rfl, fun _ => rfl, rfl, ?_⟩
    exact (length_counters tasks fun pid event => ⟨event, -1, pid⟩).symm ▸ enough hne
  | perCpu cpus hne =>
    refine ⟨rfl, rfl, fun _ => rfl, fun _ => rfl, rfl, ?_⟩
    exact (length_counters cpus fun cpu event => ⟨event, cpu, -1⟩).symm ▸ enough hne

/-- The counts are exact in both modes; the ratios agree where the accumulated times keep the ratio of the
readings, since the times are never reset. -/
theorem interval_reports_iff (more : UInt64 → UInt64 → Bool) (evts : List OperfEvent) (r : OcountRecord)
    (reading : Nat → Nat → OcountAccum) (h : SetUp evts r) (hread : Readings reading) :
    (ExactCounts more reading r evts.length r.perfCounters.length ∧
      (r.perfCounters.length = evts.length → ∀ k,
        (report more reading false r k).map Line.value = (report more reading true r k).map Line.value)) ↔
      (r.perfCounters.length = evts.length → SteadyRatios more reading evts.length) := by
  have hopen := h.opened
  constructor
  · rintro ⟨-, hagree⟩ hone
    rw [hone] at hopen
    exact (modes_agree_iff hopen hread).mp (hagree hone)
  · intro hsteady
    refine ⟨exactCounts hopen hread, ?_⟩
    intro hone
    rw [hone] at hopen
    exact (modes_agree_iff hopen hread).mpr (hsteady hone)

/-- A plain event. -/
def cycles : OperfEvent where
  name := ['C', 'Y', 'C', 'L', 'E', 'S']
  count := 0
  evtUm := 0
  umName := []
  umNumericValAsStr := []
  noKernel := false
  noUser := false
  throttled := false
  modeSpecified := false
  umaskSpecified := false

/-- More than one percent, without the rounding of doubles. -/
def aboveOnePercent (lost enabled : UInt64) : Bool := enabled.toNat < 100 * lost.toNat

/-- Two counters: one runs all the time, the other half of two intervals and all of the third, after which the task
has ended. -/
def sharedCounters (k c : Nat) : OcountAccum :=
  match k with
  | 0 => ⟨0, 0, 0⟩
  | 1 => if c = 0 then ⟨7, 1000, 1000⟩ else ⟨9, 1000, 500⟩
  | 2 => if c = 0 then ⟨14, 2000, 2000⟩ else ⟨18, 2000, 1000⟩
  | _ => if c = 0 then ⟨20, 300000, 300000⟩ else ⟨27, 300000, 299000⟩

theorem sharedCounters_grows (c : Nat) (f : OcountAccum → UInt64)
    (hfirst : f ⟨0, 0, 0⟩ ≤ f ⟨7, 1000, 1000⟩ ∧ f ⟨7, 1000, 1000⟩ ≤ f ⟨14, 2000, 2000⟩ ∧
      f ⟨14, 2000, 2000⟩ ≤ f ⟨20, 300000, 300000⟩)
    (hsecond : f ⟨0, 0, 0⟩ ≤ f ⟨9, 1000, 500⟩ ∧ f ⟨9, 1000, 500⟩ ≤ f ⟨18, 2000, 1000⟩ ∧
      f ⟨18, 2000, 1000⟩ ≤ f ⟨27, 300000, 299000⟩) (k : Nat) :
    f (sharedCounters k c) ≤ f (sharedCounters (k + 1) c) := by
  rcases eq_or_ne c 0 with rfl | hc
  · obtain ⟨h0, h1, h2⟩ := hfirst
    rcases k with _ | _ | _ | k
    exacts [h0, h1, h2, UInt64.le_refl _]
  · obtain ⟨h0, h1, h2⟩ := hsecond
    rcases k with _ | _ | _ | k <;> simp only [sharedCounters, if_neg hc]
    exacts [h0, h1, h2, UInt64.le_refl _]

theorem sharedCounters_readings : Readings sharedCounters where
  zero _ := rfl
  count k c := sharedCounters_grows c OcountAccum.count (by decide) (by decide) k
  enabledTime k c := sharedCounters_grows c OcountAccum.enabledTime (by decide) (by decide) k
  runningTime k c := sharedCounters_grows c OcountAccum.runningTime (by decide) (by decide) k

theorem sharedCounters_steady : SteadyRatios aboveOnePercent sharedCounters 2 := by
  intro k hscaled e he
  obtain rfl | rfl : e = 0 ∨ e = 1 := by omega
  all_goals rcases k with _ | _ | k
  · decide +kernel
  · decide +kernel
  · exact absurd hscaled (by simp [anyNeedsScaling, needsScaling, sharedCounters, aboveOnePercent, List.range_succ])
  · decide +kernel
  · decide +kernel
  · exact absurd hscaled (by simp [anyNeedsScaling, needsScaling, sharedCounters, aboveOnePercent, List.range_succ])

/-- The first two reports are scaled. -/
theorem interval_reports_iff_cycles :
    (∀ k, (report aboveOnePercent sharedCounters false (doCountingPerTask [cycles, cycles] [42] true) k).map Line.value =
        (report aboveOnePercent sharedCounters true (doCountingPerTask [cycles, cycles] [42] true) k).map Line.value) ∧
      (report aboveOnePercent sharedCounters false (doCountingPerTask [cycles, cycles] [42] true) 1).map Line.value =
        [(7, 1), (9, 1 / 2)] := by
  have hset : SetUp [cycles, cycles] (doCountingPerTask [cycles, cycles] [42] true) :=
    .perTask [42] (List.cons_ne_nil 42 [])
  have hexact := (interval_reports_iff aboveOnePercent [cycles, cycles] _ sharedCounters hset
    sharedCounters_readings).mpr fun _ => sharedCounters_steady
  exact ⟨hexact.2 rfl, by decide +kernel⟩

/-- A counter that runs half of a first interval and all of a second one. -/
def multiplexed (k _c : Nat) : OcountAccum :=
  match k with
  | 0 => ⟨0, 0, 0⟩
  | 1 => ⟨100, 100, 50⟩
  | _ => ⟨300, 200, 150⟩

/-- In its second report the aggregated mode scales by 200/300, the separated one by 150/200. -/
theorem second_report_differs :
    SetUp [cycles] (doCountingPerTask [cycles] [42] true) ∧ Readings multiplexed ∧
      (report aboveOnePercent multiplexed false (doCountingPerTask [cycles] [42] true) 1).map Line.value ≠
        (report aboveOnePercent multiplexed true (doCountingPerTask [cycles] [42] true) 1).map Line.value := by
  have grows (k : Nat) (f : OcountAccum → UInt64) (h0 : f ⟨0, 0, 0⟩ ≤ f ⟨100, 100, 50⟩)
      (h1 : f ⟨100, 100, 50⟩ ≤ f ⟨300, 200, 150⟩) : f (multiplexed k 0) ≤ f (multiplexed (k + 1) 0) := by
    rcases k with _ | _ | k
    · exact h0
    · exact h1
    · exact UInt64.le_refl _
  have hread : Readings multiplexed := by
    refine ⟨fun _ => rfl, ?_, ?_, ?_⟩
    · intro k _
      exact grows k OcountAccum.count (by decide) (by decide)
    · intro k _
      exact grows k OcountAccum.enabledTime (by decide) (by decide)
    · intro k _
      exact grows k OcountAccum.runningTime (by decide) (by decide)
  exact ⟨.perTask [42] (List.cons_ne_nil 42 []), hread, by decide +kernel⟩

end Oprofile.PeCounting
