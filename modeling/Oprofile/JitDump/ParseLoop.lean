import Oprofile.JitDump.ParseBounds

/-! The loop over the records: where it gets to, when it ends, and when it stays in the file. -/
namespace Oprofile.JitDump

open Records

section

variable {m : Mapping} {file : List UInt8} {endTime : UInt64} {start ptr n : Nat} {rec' : JrPrefix} {st : Parsed}

/-- The record at the place lies in the file by its total size, so that the `switch` looks at it. -/
structure WholeAt (file : List UInt8) (ptr : Nat) (rec' : JrPrefix) : Prop where
  head : recordAt file ptr = some rec'
  whole : ptr + rec'.totalSize.toNat ≤ file.length

/-- The total size of the record takes it past the end of the file. -/
structure PastEnd (file : List UInt8) (ptr : Nat) (rec' : JrPrefix) : Prop where
  head : recordAt file ptr = some rec'
  past : file.length < ptr + rec'.totalSize.toNat

theorem recordAt_spec (h : recordAt file ptr = some rec') :
    ptr + prefixFormat.width < file.length ∧ rec' = prefixFormat.decode (file.drop ptr) := by
  rw [recordAt] at h
  split_ifs at h with hlt
  rw [structAt, if_pos (Nat.le_of_lt hlt)] at h
  exact ⟨hlt, (Option.some.inj h).symm⟩

theorem recordAt_none (h : recordAt file ptr = none) : ¬ptr + prefixFormat.width < file.length := by
  intro hlt
  rw [recordAt, if_pos hlt, structAt, if_pos (Nat.le_of_lt hlt)] at h
  cases h

/-- A place of the loop is the end of it, or there is a record. -/
theorem place_cases (file : List UInt8) (ptr : Nat) :
    recordAt file ptr = none ∨ ∃ rec', PastEnd file ptr rec' ∨ WholeAt file ptr rec' := by
  cases hrec : recordAt file ptr with
  | none => exact Or.inl rfl
  | some rec' =>
    right
    rcases Nat.lt_or_ge file.length (ptr + rec'.totalSize.toNat) with hpast | hwhole
    · exact ⟨rec', Or.inl ⟨hrec, hpast⟩⟩
    · exact ⟨rec', Or.inr ⟨hrec, hwhole⟩⟩

/-! One round. -/

theorem parseRound_end (h : recordAt m.file ptr = none) : parseRound m endTime ptr st = pure (.stops st) := by
  rw [parseRound, if_neg (recordAt_none h)]

theorem readPrefix_value (h : recordAt m.file ptr = some rec') :
    (m.readStruct prefixFormat ptr).value = some rec' ∧ m.Within (m.readStruct prefixFormat ptr).reads := by
  obtain ⟨hlt, rfl⟩ := recordAt_spec h
  exact ⟨readStruct_value prefixFormat_local (Nat.le_of_lt hlt), within_single.mpr (Nat.le_of_lt hlt)⟩

theorem parseRound_past (endTime : UInt64) (st : Parsed) (h : PastEnd m.file ptr rec') :
    (parseRound m endTime ptr st).value = some (.stops { st with rc := .fail }) ∧
      m.Within (parseRound m endTime ptr st).reads := by
  obtain ⟨hvalue, hreads⟩ := readPrefix_value h.head
  rw [parseRound, if_pos (recordAt_spec h.head).1, bind_some hvalue]
  dsimp only
  rw [if_pos h.past]
  refine ⟨rfl, ?_⟩
  rw [pure_reads, List.append_nil]
  exact hreads

theorem parseRound_whole (endTime : UInt64) (st : Parsed) (h : WholeAt m.file ptr rec') :
    (parseRound m endTime ptr st).value =
        (readRecord m ptr rec' endTime st).value.map (.goesOn (ptr + rec'.totalSize.toNat)) ∧
      (m.Within (parseRound m endTime ptr st).reads ↔ m.Within (readRecord m ptr rec' endTime st).reads) := by
  obtain ⟨hvalue, hreads⟩ := readPrefix_value h.head
  rw [parseRound, if_pos (recordAt_spec h.head).1, bind_some hvalue]
  dsimp only
  rw [if_neg (Nat.not_lt.mpr h.whole), within_append]
  cases hread : (readRecord m ptr rec' endTime st).value with
  | none =>
    rw [bind_none hread]
    exact ⟨rfl, and_iff_right hreads⟩
  | some st' =>
    rw [bind_some hread]
    refine ⟨rfl, ?_⟩
    rw [pure_reads, List.append_nil]
    exact and_iff_right hreads

/-- A round that goes on has looked at a whole record. -/
theorem parseRound_goesOn {ptr' : Nat} {st' : Parsed}
    (h : (parseRound m endTime ptr st).value = some (.goesOn ptr' st')) :
    ∃ rec', WholeAt m.file ptr rec' ∧ ptr' = ptr + rec'.totalSize.toNat ∧
      (readRecord m ptr rec' endTime st).value = some st' := by
  rcases place_cases m.file ptr with hnone | ⟨rec', hpast | hwhole⟩
  · rw [parseRound_end hnone] at h
    cases h
  · rw [(parseRound_past _ _ hpast).1] at h
    cases h
  · rw [(parseRound_whole _ _ hwhole).1] at h
    obtain ⟨st'', hread, heq⟩ := Option.map_eq_some_iff.mp h
    cases heq
    exact ⟨rec', hwhole, rfl, hread⟩

/-! Runs. -/

theorem rounds_goesOn (h : (rounds m endTime start n).value = some (.goesOn ptr st)) :
    rounds m endTime start (n + 1) = ⟨(parseRound m endTime ptr st).value,
      (rounds m endTime start n).reads ++ (parseRound m endTime ptr st).reads⟩ := by
  rw [rounds, bind_some h]

theorem rounds_stops (h : (rounds m endTime start n).value = some (.stops st)) :
    rounds m endTime start (n + 1) = ⟨some (.stops st), (rounds m endTime start n).reads⟩ := by
  rw [rounds, bind_some h, pure_reads, List.append_nil]
  rfl

theorem rounds_none (h : (rounds m endTime start n).value = none) :
    rounds m endTime start (n + 1) = ⟨none, (rounds m endTime start n).reads⟩ := by
  rw [rounds, bind_none h]

theorem stops_of_le {k : Nat} (h : (rounds m endTime start n).value = some (.stops st)) (hle : n ≤ k) :
    (rounds m endTime start k).value = some (.stops st) := by
  induction k, hle using Nat.le_induction with
  | base => exact h
  | succ k _ ih => rw [rounds_stops ih]

theorem none_of_le {k : Nat} (h : (rounds m endTime start n).value = none) (hle : n ≤ k) :
    (rounds m endTime start k).value = none := by
  induction k, hle using Nat.le_induction with
  | base => exact h
  | succ k _ ih => rw [rounds_none ih]

/-- Before a round that goes on all others did. -/
theorem goesOn_of_le {k : Nat} (h : (rounds m endTime start n).value = some (.goesOn ptr st)) (hle : k ≤ n) :
    ∃ ptr' st', (rounds m endTime start k).value = some (.goesOn ptr' st') := by
  cases hk : (rounds m endTime start k).value with
  | none =>
    rw [none_of_le hk hle] at h
    cases h
  | some l =>
    cases l with
    | stops st' =>
      rw [stops_of_le hk hle] at h
      cases h
    | goesOn ptr' st' => exact ⟨ptr', st', rfl⟩

/-- A round that goes on follows another, unless it is the first. -/
theorem goesOn_succ {ptr' : Nat} {st' : Parsed} (h : (rounds m endTime start (n + 1)).value = some (.goesOn ptr' st')) :
    ∃ ptr st rec', (rounds m endTime start n).value = some (.goesOn ptr st) ∧ WholeAt m.file ptr rec' ∧
      ptr' = ptr + rec'.totalSize.toNat ∧ (readRecord m ptr rec' endTime st).value = some st' := by
  obtain ⟨ptr, st, hgoes⟩ := goesOn_of_le h (Nat.le_succ n)
  rw [rounds_goesOn hgoes] at h
  obtain ⟨rec', hwhole, hptr, hread⟩ := parseRound_goesOn h
  exact ⟨ptr, st, rec', hgoes, hwhole, hptr, hread⟩

/-- The loop gets to places only. -/
theorem rounds_place (h : (rounds m endTime start n).value = some (.goesOn ptr st)) : Place m.file start ptr := by
  induction n generalizing ptr st with
  | zero =>
    cases h
    exact .start
  | succ n ih =>
    obtain ⟨ptr₀, st₀, rec', hgoes, hwhole, rfl, -⟩ := goesOn_succ h
    exact .next (ih hgoes) hwhole.head hwhole.whole

/-- It gets to all of them when no record makes it fault. -/
theorem rounds_visit (endTime : UInt64) (hread : ∀ p r s, Place m.file start p → WholeAt m.file p r →
      ∃ s', (readRecord m p r endTime s).value = some s') (h : Place m.file start ptr) :
    ∃ n st, (rounds m endTime start n).value = some (.goesOn ptr st) := by
  induction h with
  | start => exact ⟨0, _, rfl⟩
  | next hplace hrec hle ih =>
    obtain ⟨n, st, hgoes⟩ := ih
    obtain ⟨st', hvalue⟩ := hread _ _ st hplace ⟨hrec, hle⟩
    refine ⟨n + 1, st', ?_⟩
    rw [rounds_goesOn hgoes]
    dsimp only
    rw [(parseRound_whole _ _ ⟨hrec, hle⟩).1, hvalue]
    rfl

/-- No round is lost when no record makes the loop fault. -/
theorem rounds_some (endTime : UInt64) (hread : ∀ p r s, Place m.file start p → WholeAt m.file p r →
      ∃ s', (readRecord m p r endTime s).value = some s') (n : Nat) :
    ∃ l, (rounds m endTime start n).value = some l := by
  induction n with
  | zero => exact ⟨_, rfl⟩
  | succ n ih =>
    obtain ⟨l, hl⟩ := ih
    cases l with
    | stops st => exact ⟨_, stops_of_le hl (Nat.le_succ n)⟩
    | goesOn ptr st =>
      rw [rounds_goesOn hl]
      rcases place_cases m.file ptr with hnone | ⟨rec', hpast | hwhole⟩
      · rw [parseRound_end hnone]
        exact ⟨_, rfl⟩
      · exact ⟨_, (parseRound_past _ _ hpast).1⟩
      · obtain ⟨st', hvalue⟩ := hread ptr rec' st (rounds_place hl) hwhole
        refine ⟨.goesOn (ptr + rec'.totalSize.toNat) st', ?_⟩
        dsimp only
        rw [(parseRound_whole _ _ hwhole).1, hvalue]
        rfl

/-! The end of the loop. -/

theorem parseHeader_le (h : parseHeader file = some start) : start ≤ file.length := by
  rw [parseHeader] at h
  split_ifs at h with hlength
  dsimp only at h
  split_ifs at h with hreject
  obtain rfl := Option.some.inj h
  exact Nat.le_of_not_lt fun hlt => hreject (Or.inr (Or.inr hlt))

/-- Every record that the loop gets to has a total size. -/
def Advancing (file : List UInt8) (start : Nat) : Prop :=
  ∀ ptr rec', Place file start ptr → recordAt file ptr = some rec' → rec'.totalSize ≠ 0

theorem rounds_advance (hadvancing : Advancing m.file start)
    (h : (rounds m endTime start n).value = some (.goesOn ptr st)) : start + n ≤ ptr := by
  induction n generalizing ptr st with
  | zero =>
    cases h
    exact Nat.le_refl _
  | succ n ih =>
    obtain ⟨ptr₀, st₀, rec', hgoes, hwhole, rfl, -⟩ := goesOn_succ h
    have hle := ih hgoes
    have hne := hadvancing ptr₀ rec' (rounds_place hgoes) hwhole.head
    have hpos : rec'.totalSize.toNat ≠ 0 := fun hzero => hne (UInt32.toNat_inj.mp hzero)
    omega

theorem place_le (hstart : start ≤ file.length) (h : Place file start ptr) : ptr ≤ file.length := by
  cases h with
  | start => exact hstart
  | next _ _ hle => exact hle

/-- Each round goes on by a byte at least. -/
theorem ends_of_advancing (endTime : UInt64) (hstart : start ≤ m.file.length) (hadvancing : Advancing m.file start) :
    Ends m endTime start := by
  refine ⟨m.file.length + 1, ?_⟩
  intro ptr st h
  have hle := place_le hstart (rounds_place h)
  have hge := rounds_advance hadvancing h
  omega

/-- A record without a total size is looked at again and again. -/
theorem not_ends_of_zero (endTime : UInt64) (hread : ∀ p r s, Place m.file start p → WholeAt m.file p r →
      ∃ s', (readRecord m p r endTime s).value = some s') (hplace : Place m.file start ptr)
    (hwhole : WholeAt m.file ptr rec') (hzero : rec'.totalSize = 0) : ¬Ends m endTime start := by
  rintro ⟨k, hk⟩
  obtain ⟨n, st, hgoes⟩ := rounds_visit endTime hread hplace
  have hforever : ∀ i, ∃ st, (rounds m endTime start (n + i)).value = some (.goesOn ptr st) := by
    intro i
    induction i with
    | zero => exact ⟨st, hgoes⟩
    | succ i ih =>
      obtain ⟨st₁, hgoes₁⟩ := ih
      obtain ⟨st₂, hvalue⟩ := hread ptr rec' st₁ hplace hwhole
      refine ⟨st₂, ?_⟩
      rw [← Nat.add_assoc, rounds_goesOn hgoes₁]
      dsimp only
      rw [(parseRound_whole _ _ hwhole).1, hvalue, hzero]
      rfl
  obtain ⟨st', hgoes'⟩ := hforever k
  obtain ⟨ptr₁, st₁, hgoes₁⟩ := goesOn_of_le hgoes' (Nat.le_add_left k n)
  exact hk ptr₁ st₁ hgoes₁

/-! With zeros behind the file no record makes the loop fault. -/

theorem readable_struct {α : Type} {c : Format α} (h : ptr + c.width ≤ m.memory.length) :
    ∃ a, (m.readStruct c ptr).value = some a := by
  rw [Mapping.readStruct, structAt, if_pos h]
  exact ⟨_, rfl⟩

theorem readable_string (h : 0 ∈ m.memory.drop ptr) : ∃ s, (m.readString ptr).value = some s := by
  rw [Mapping.readString, stringAt, if_pos h]
  exact ⟨_, rfl⟩

theorem readable_load (size : Int32) (endTime : UInt64) (h : 0 ∈ m.memory.drop (ptr + loadFormat.width)) :
    ∃ r, (readCodeLoad m ptr size endTime).value = some r := by
  obtain ⟨rec', hrec⟩ := readable_struct (m := m) (c := loadFormat) (Nat.le_of_lt (lt_of_mem_drop h))
  obtain ⟨name, hname⟩ := readable_string h
  rw [readCodeLoad, bind_some hrec, bind_some hname]
  dsimp only
  split
  · exact ⟨_, rfl⟩
  · exact ⟨_, rfl⟩

theorem readable_record (h : RecordFits m.memory ptr rec') :
    ∃ st', (readRecord m ptr rec' endTime st).value = some st' := by
  rw [readRecord]
  split_ifs with hload hunload hclose hdebug hzero
  · obtain ⟨r, hr⟩ := readable_load rec'.totalSize.toInt32 endTime (h.load hload)
    rw [bind_some hr]
    exact ⟨_, rfl⟩
  · obtain ⟨r, hr⟩ := readable_struct (m := m) (c := unloadFormat) (h.unload hunload)
    rw [readCodeUnload, bind_some hr]
    split
    · exact ⟨_, rfl⟩
    · exact ⟨_, rfl⟩
  · exact ⟨_, rfl⟩
  · exact ⟨_, rfl⟩
  · obtain ⟨r, hr⟩ := readable_struct (m := m) (c := prefixFormat.pair u64) (h.debugInfo hdebug hzero)
    rw [readCodeDebugInfo, bind_some hr]
    exact ⟨_, rfl⟩
  · exact ⟨_, rfl⟩

theorem fits_before_zeros (h : WholeAt file ptr rec') : RecordFits (file ++ List.replicate 64 0) ptr rec' := by
  have hlt : ptr + 8 < file.length := (recordAt_spec h.head).1
  have hlength : (file ++ List.replicate 64 (0 : UInt8)).length = file.length + 64 := by
    rw [List.length_append, List.length_replicate]
  refine ⟨fun _ => ?_, fun _ => ?_, fun _ _ => ?_⟩
  · rw [List.drop_append]
    apply List.mem_append_right
    rw [List.drop_replicate]
    apply List.mem_replicate.mpr
    refine ⟨?_, rfl⟩
    change 64 - (ptr + 40 - file.length) ≠ 0
    omega
  · rw [hlength]
    change ptr + 24 ≤ _
    omega
  · rw [hlength]
    change ptr + 16 ≤ _
    omega

/-- The loop of `parse_entries` ends, whatever lies behind the file, exactly when every record that it gets to
has a total size. -/
theorem parseEntries_ends_iff (file : List UInt8) :
    (∀ beyond endTime start, parseHeader file = some start → Ends ⟨file, beyond⟩ endTime start) ↔
      ∀ start, parseHeader file = some start → Advancing file start := by
  constructor
  · intro hends start hheader ptr rec' hplace hrec hzero
    have hle : ptr + rec'.totalSize.toNat ≤ file.length := by
      have hlt := (recordAt_spec hrec).1
      rw [hzero]
      exact Nat.le_trans (Nat.le_add_right ptr prefixFormat.width) (Nat.le_of_lt hlt)
    refine not_ends_of_zero (m := ⟨file, List.replicate 64 0⟩) 0 ?_ hplace ⟨hrec, hle⟩ hzero
      (hends _ _ start hheader)
    intro p r s _ hwhole
    exact readable_record (fits_before_zeros hwhole)
  · intro hadvancing beyond endTime start hheader
    exact ends_of_advancing endTime (parseHeader_le hheader) (hadvancing start hheader)

end

/-- A dump whose writer died after the provisional header of a debug record. -/
def interruptedDump : List UInt8 :=
  headerFormat.encode ⟨jitheaderMagic, jitheaderVersion, 40, 9, 8, 0, 1⟩ ++ [101, 108, 102, 0, 0, 0, 0, 0] ++
    debugFormat.encode (debugRecord 4096 [⟨4096, 7, ⟨[97], noNul_a⟩⟩] 2 0 0)

theorem recordAt_interrupted : recordAt interruptedDump 40 = some ⟨jitCodeDebugInfo, 0⟩ := by
  have hlength : interruptedDump.length = 72 := by decide
  have hdecode : (prefixFormat.decode (interruptedDump.drop 40)).id = jitCodeDebugInfo ∧
      (prefixFormat.decode (interruptedDump.drop 40)).totalSize = 0 := by decide
  rw [recordAt, if_pos (by rw [hlength]; decide), structAt, if_pos (by rw [hlength]; decide)]
  rw [← hdecode.1, ← hdecode.2]

theorem place_interrupted {ptr : Nat} (h : Place interruptedDump 40 ptr) : ptr = 40 := by
  induction h with
  | start => rfl
  | next _ hrec _ ih =>
    subst ih
    obtain rfl := Option.some.inj (recordAt_interrupted.symm.trans hrec)
    rfl

/-- The converter does not get past the provisional header. -/
theorem interrupted_dump_hangs : parseHeader interruptedDump = some 40 ∧
    ∀ endTime, ¬Ends ⟨interruptedDump, []⟩ endTime 40 := by
  refine ⟨by decide, fun endTime => ?_⟩
  have hwhole : WholeAt interruptedDump 40 ⟨jitCodeDebugInfo, 0⟩ := ⟨recordAt_interrupted, by decide⟩
  refine not_ends_of_zero (m := ⟨interruptedDump, []⟩) endTime ?_ .start hwhole rfl
  intro p r s hplace hrec
  obtain rfl := place_interrupted hplace
  obtain rfl := Option.some.inj (recordAt_interrupted.symm.trans hrec.head)
  exact ⟨_, rfl⟩

end Oprofile.JitDump
