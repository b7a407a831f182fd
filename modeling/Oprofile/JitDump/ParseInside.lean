import Oprofile.JitDump.ParseLoop

/-! Which files are parsed without a look at what lies behind them. -/
namespace Oprofile.JitDump

open Records

/-- The lists and the return code so far. -/
def Loop.state : Loop → Parsed
  | .stops st => st
  | .goesOn _ st => st

/-- What was read lies in the file, and so do the code and the tables that are kept. -/
structure Inside (m : Mapping) (r : Reading Loop) : Prop where
  reads : m.Within r.reads
  state : ∀ l, r.value = some l → l.state.Within m

/-- What `parse_header` reads. -/
def headerReads (file : List UInt8) : List (Nat × Nat) :=
  if file.length ≤ headerFormat.width then [] else [(0, headerFormat.width)]

/-- `parse_all` stays in the file, or it returns `OP_JIT_CONV_FAIL`. -/
def StaysInside (m : Mapping) (endTime : UInt64) : Prop :=
  m.Within (headerReads m.file) ∧
    ∀ start, parseHeader m.file = some start →
      ReportsFail m endTime start ∨ ∀ n, Inside m (rounds m endTime start n)

/-- What the `switch` reads lies in the file. The code and the tables lie in it too, or the loop comes to an
end and a record made it fail. -/
structure Contained (file : List UInt8) (start : Nat) : Prop where
  fits : ∀ ptr rec', Place file start ptr → WholeAt file ptr rec' → RecordFits file ptr rec'
  content : (∀ ptr rec', Place file start ptr → WholeAt file ptr rec' → ContentFits file ptr rec') ∨
    Advancing file start ∧ ∃ ptr rec', Place file start ptr ∧
      (PastEnd file ptr rec' ∨ WholeAt file ptr rec' ∧ Rejected file ptr rec')

section

variable {m : Mapping} {file : List UInt8} {endTime : UInt64} {start ptr n : Nat} {rec' : JrPrefix} {st : Parsed}

/-! A fault is a read outside of the file. -/

theorem faults_record : (readRecord m ptr rec' endTime st).Faults m := by
  rw [readRecord]
  split_ifs
  · apply Reading.Faults.bind
    · apply (faults_struct loadFormat ptr).bind
      intro r
      apply (faults_string _).bind
      intro name
      dsimp only
      split
      · exact faults_pure _
      · exact faults_pure _
    · exact fun _ => faults_pure _
  · apply Reading.Faults.bind
    · apply (faults_struct unloadFormat ptr).bind
      intro r
      split
      · exact faults_pure _
      · exact faults_pure _
    · exact fun _ => faults_pure _
  · exact faults_pure _
  · exact faults_pure _
  · apply Reading.Faults.bind
    · exact (faults_struct _ ptr).bind fun _ => faults_pure _
    · exact fun _ => faults_pure _
  · exact faults_pure _

theorem faults_round : (parseRound m endTime ptr st).Faults m := by
  rw [parseRound]
  split_ifs
  · apply (faults_struct prefixFormat ptr).bind
    intro r
    split
    · exact faults_pure _
    · exact faults_record.bind fun _ => faults_pure _
  · exact faults_pure _

theorem faults_rounds : (rounds m endTime start n).Faults m := by
  induction n with
  | zero => exact faults_pure _
  | succ n ih =>
    rw [rounds]
    apply ih.bind
    intro l
    cases l with
    | stops st => exact faults_pure _
    | goesOn ptr st => exact faults_round

/-! With nothing behind the file, what can be read lies in it. -/

theorem struct_le {α : Type} {c : Format α} {a : α} (hb : m.beyond = [])
    (h : (m.readStruct c ptr).value = some a) : ptr + c.width ≤ m.file.length := by
  rw [Mapping.readStruct, Mapping.memory, hb, List.append_nil, structAt] at h
  dsimp only at h
  split_ifs at h with hle
  exact hle

theorem string_mem {s : List UInt8} (hb : m.beyond = []) (h : (m.readString ptr).value = some s) :
    0 ∈ m.file.drop ptr := by
  rw [Mapping.readString, Mapping.memory, hb, List.append_nil, stringAt] at h
  dsimp only at h
  split_ifs at h with hmem
  exact hmem

theorem fits_of_value (hb : m.beyond = []) {st' : Parsed} (h : (readRecord m ptr rec' endTime st).value = some st') :
    RecordFits m.file ptr rec' := by
  rw [readRecord] at h
  refine ⟨fun hload => ?_, fun hunload => ?_, fun hdebug hne => ?_⟩
  · rw [if_pos hload] at h
    obtain ⟨r, hr, -⟩ := value_bind h
    obtain ⟨rec₁, -, hrest⟩ := value_bind hr
    obtain ⟨name, hname, -⟩ := value_bind hrest
    exact string_mem hb hname
  · have hload : rec'.id ≠ jitCodeLoad := by
      rw [hunload]
      decide
    rw [if_neg hload, if_pos hunload] at h
    obtain ⟨r, hr, -⟩ := value_bind h
    obtain ⟨rec₁, hrec, -⟩ := value_bind hr
    exact struct_le hb hrec
  · have hother : rec'.id ≠ jitCodeLoad ∧ rec'.id ≠ jitCodeUnload ∧ rec'.id ≠ jitCodeClose := by
      rw [hdebug]
      decide
    rw [if_neg hother.1, if_neg hother.2.1, if_neg hother.2.2, if_pos hdebug, if_neg hne] at h
    obtain ⟨r, hr, -⟩ := value_bind h
    obtain ⟨rec₁, hrec, -⟩ := value_bind hr
    exact struct_le hb hrec

/-! The return code. -/

/-- The return code tells of a record that made the loop fail. -/
theorem rounds_fail (hfits : ∀ ptr rec', Place m.file start ptr → WholeAt m.file ptr rec' → RecordFits m.file ptr rec')
    {l : Loop} (h : (rounds m endTime start n).value = some l) (hrc : l.state.rc = .fail) :
    ∃ ptr rec', Place m.file start ptr ∧
      (PastEnd m.file ptr rec' ∨ WholeAt m.file ptr rec' ∧ Rejected m.file ptr rec') := by
  induction n generalizing l with
  | zero =>
    cases h
    cases hrc
  | succ n ih =>
    cases hn : (rounds m endTime start n).value with
    | none =>
      rw [rounds_none hn] at h
      cases h
    | some l₀ =>
      cases l₀ with
      | stops st =>
        rw [rounds_stops hn] at h
        cases h
        exact ih hn hrc
      | goesOn ptr st =>
        rw [rounds_goesOn hn] at h
        have hplace := rounds_place hn
        rcases place_cases m.file ptr with hnone | ⟨rec', hpast | hwhole⟩
        · rw [parseRound_end hnone] at h
          cases h
          exact ih hn hrc
        · exact ⟨ptr, rec', hplace, Or.inl hpast⟩
        · dsimp only at h
          obtain ⟨st', hvalue, -, -, hfail⟩ := readRecord_fits endTime st (hfits _ _ hplace hwhole)
          rw [(parseRound_whole _ _ hwhole).1, hvalue] at h
          cases h
          rcases hfail.mp hrc with hbefore | hrejected
          · exact ih hn hbefore
          · exact ⟨ptr, rec', hplace, Or.inr ⟨hwhole, hrejected⟩⟩

/-- It keeps telling. -/
theorem fail_persists
    (hfits : ∀ ptr rec', Place m.file start ptr → WholeAt m.file ptr rec' → RecordFits m.file ptr rec')
    {k : Nat} {l l' : Loop} (h : (rounds m endTime start n).value = some l) (hrc : l.state.rc = .fail) (hle : n ≤ k)
    (h' : (rounds m endTime start k).value = some l') : l'.state.rc = .fail := by
  induction k, hle using Nat.le_induction generalizing l' with
  | base =>
    obtain rfl := Option.some.inj (h.symm.trans h')
    exact hrc
  | succ k hle ih =>
    cases hk : (rounds m endTime start k).value with
    | none =>
      rw [rounds_none hk] at h'
      cases h'
    | some l₀ =>
      have hrc₀ := ih hk
      cases l₀ with
      | stops st =>
        rw [rounds_stops hk] at h'
        cases h'
        exact hrc₀
      | goesOn ptr st =>
        rw [rounds_goesOn hk] at h'
        dsimp only at h'
        rcases place_cases m.file ptr with hnone | ⟨rec', hpast | hwhole⟩
        · rw [parseRound_end hnone] at h'
          cases h'
          exact hrc₀
        · rw [(parseRound_past _ _ hpast).1] at h'
          cases h'
          rfl
        · obtain ⟨st', hvalue, -, -, hfail⟩ :=
            readRecord_fits endTime st (hfits _ _ (rounds_place hk) hwhole)
          rw [(parseRound_whole _ _ hwhole).1, hvalue] at h'
          cases h'
          exact hfail.mpr (Or.inl hrc₀)

/-! The whole loop. -/

theorem readable_of_fits (endTime : UInt64)
    (hfits : ∀ ptr rec', Place m.file start ptr → WholeAt m.file ptr rec' → RecordFits m.file ptr rec') :
    ∀ p r s, Place m.file start p → WholeAt m.file p r → ∃ s', (readRecord m p r endTime s).value = some s' := by
  intro p r s hplace hwhole
  obtain ⟨s', hvalue, -⟩ := readRecord_fits endTime s (hfits p r hplace hwhole)
  exact ⟨s', hvalue⟩

/-- A file without anything behind it is parsed without a fault only if all records fit. -/
theorem fits_of_staysInside (hb : m.beyond = []) (hstays : ReportsFail m endTime start ∨ ∀ n, Inside m (rounds m endTime start n))
    (hgoes : (rounds m endTime start n).value = some (.goesOn ptr st)) (hwhole : WholeAt m.file ptr rec') :
    RecordFits m.file ptr rec' := by
  cases hvalue : (readRecord m ptr rec' endTime st).value with
  | some st' => exact fits_of_value hb hvalue
  | none =>
    exfalso
    have hnone : (rounds m endTime start (n + 1)).value = none := by
      rw [rounds_goesOn hgoes]
      dsimp only
      rw [(parseRound_whole _ _ hwhole).1, hvalue]
      rfl
    rcases hstays with ⟨k, st', hstops, -⟩ | hinside
    · rcases Nat.le_total k (n + 1) with hle | hle
      · rw [stops_of_le hstops hle] at hnone
        cases hnone
      · rw [none_of_le hnone hle] at hstops
        cases hstops
    · exact faults_rounds hnone (hinside (n + 1)).reads

theorem place_fits (hb : m.beyond = []) (hstays : ReportsFail m endTime start ∨ ∀ n, Inside m (rounds m endTime start n))
    (hplace : Place m.file start ptr) : ∃ n st, (rounds m endTime start n).value = some (.goesOn ptr st) := by
  induction hplace with
  | start => exact ⟨0, _, rfl⟩
  | next _ hrec hle ih =>
    obtain ⟨n, st, hgoes⟩ := ih
    have hwhole : WholeAt m.file _ _ := ⟨hrec, hle⟩
    obtain ⟨st', hvalue, -⟩ := readRecord_fits endTime st
      (fits_of_staysInside hb hstays hgoes hwhole)
    refine ⟨n + 1, st', ?_⟩
    rw [rounds_goesOn hgoes]
    dsimp only
    rw [(parseRound_whole _ _ hwhole).1, hvalue]
    rfl

theorem contained_of_staysInside (hb : m.beyond = [])
    (hstays : ReportsFail m endTime start ∨ ∀ n, Inside m (rounds m endTime start n)) : Contained m.file start := by
  have hfits : ∀ ptr rec', Place m.file start ptr → WholeAt m.file ptr rec' → RecordFits m.file ptr rec' := by
    intro ptr rec' hplace hwhole
    obtain ⟨n, st, hgoes⟩ := place_fits hb hstays hplace
    exact fits_of_staysInside hb hstays hgoes hwhole
  refine ⟨hfits, ?_⟩
  rcases hstays with ⟨n, st, hstops, hrc⟩ | hinside
  · right
    refine ⟨?_, rounds_fail hfits hstops hrc⟩
    intro ptr rec' hplace hrec hzero
    have hlt := (recordAt_spec hrec).1
    refine not_ends_of_zero endTime (readable_of_fits endTime hfits) hplace ⟨hrec, ?_⟩ hzero ⟨n, ?_⟩
    · rw [hzero]
      exact Nat.le_trans (Nat.le_add_right ptr prefixFormat.width) (Nat.le_of_lt hlt)
    · intro ptr' st' hgoes
      rw [hstops] at hgoes
      cases hgoes
  · left
    intro ptr rec' hplace hwhole
    obtain ⟨n, st, hgoes⟩ := rounds_visit endTime (readable_of_fits endTime hfits) hplace
    obtain ⟨st', hvalue, -, hwithin, -⟩ := readRecord_fits endTime st (hfits _ _ hplace hwhole)
    refine (hwithin.mp ((hinside (n + 1)).state (.goesOn (ptr + rec'.totalSize.toNat) st') ?_)).2
    rw [rounds_goesOn hgoes]
    dsimp only
    rw [(parseRound_whole _ _ hwhole).1, hvalue]
    rfl

/-- Where all content fits, every round stays in the file. -/
theorem rounds_inside
    (hfits : ∀ ptr rec', Place m.file start ptr → WholeAt m.file ptr rec' → RecordFits m.file ptr rec')
    (hcontent : ∀ ptr rec', Place m.file start ptr → WholeAt m.file ptr rec' → ContentFits m.file ptr rec') (n : Nat) :
    Inside m (rounds m endTime start n) := by
  induction n with
  | zero =>
    refine ⟨fun r hr => absurd hr List.not_mem_nil, fun l hl => ?_⟩
    cases hl
    exact ⟨fun e he => absurd he List.not_mem_nil, fun line hline => absurd hline List.not_mem_nil⟩
  | succ n ih =>
    cases hn : (rounds m endTime start n).value with
    | none =>
      rw [rounds_none hn]
      exact ⟨ih.reads, fun l hl => by cases hl⟩
    | some l₀ =>
      cases l₀ with
      | stops st =>
        rw [rounds_stops hn]
        refine ⟨ih.reads, fun l hl => ?_⟩
        cases hl
        exact ih.state _ hn
      | goesOn ptr st =>
        have hst : st.Within m := ih.state _ hn
        have hplace := rounds_place hn
        rw [rounds_goesOn hn]
        rcases place_cases m.file ptr with hnone | ⟨rec', hpast | hwhole⟩
        · rw [parseRound_end hnone, pure_reads, List.append_nil]
          refine ⟨ih.reads, fun l hl => ?_⟩
          cases hl
          exact hst
        · obtain ⟨hvalue, hreads⟩ := parseRound_past endTime st hpast
          refine ⟨within_append.mpr ⟨ih.reads, hreads⟩, fun l hl => ?_⟩
          dsimp only at hl
          rw [hvalue] at hl
          cases hl
          exact ⟨hst.entries, hst.debugLines⟩
        · obtain ⟨st', hread, hreads, hwithin, -⟩ :=
            readRecord_fits endTime st (hfits _ _ hplace hwhole)
          obtain ⟨hvalue, hiff⟩ := parseRound_whole endTime st hwhole
          refine ⟨within_append.mpr ⟨ih.reads, hiff.mpr hreads⟩, fun l hl => ?_⟩
          dsimp only at hl
          rw [hvalue, hread] at hl
          cases hl
          exact hwithin.mpr ⟨hst, hcontent ptr rec' hplace hwhole⟩

theorem staysInside_of_contained (hstart : start ≤ m.file.length) (h : Contained m.file start) :
    ReportsFail m endTime start ∨ ∀ n, Inside m (rounds m endTime start n) := by
  rcases h.content with hcontent | ⟨hadvancing, ptr, rec', hplace, hfails⟩
  · exact Or.inr (rounds_inside h.fits hcontent)
  · left
    obtain ⟨k, st, hgoes⟩ := rounds_visit endTime (readable_of_fits endTime h.fits) hplace
    obtain ⟨n, hn⟩ := ends_of_advancing endTime hstart hadvancing
    have hlt : k < n := by
      by_contra hge
      obtain ⟨ptr', st', hgoes'⟩ := goesOn_of_le hgoes (Nat.le_of_not_lt hge)
      exact hn ptr' st' hgoes'
    have hnext : ∃ l, (rounds m endTime start (k + 1)).value = some l ∧ l.state.rc = .fail := by
      rw [rounds_goesOn hgoes]
      dsimp only
      rcases hfails with hpast | ⟨hwhole, hrejected⟩
      · rw [(parseRound_past _ _ hpast).1]
        exact ⟨_, rfl, rfl⟩
      · obtain ⟨st', hvalue, -, -, hfail⟩ :=
          readRecord_fits endTime st (h.fits _ _ hplace hwhole)
        rw [(parseRound_whole _ _ hwhole).1, hvalue]
        exact ⟨_, rfl, hfail.mpr (Or.inr hrejected)⟩
    obtain ⟨l, hl, hrc⟩ := hnext
    obtain ⟨l', hl'⟩ := rounds_some endTime (readable_of_fits endTime h.fits) n
    have hrc' := fail_persists h.fits hl hrc hlt hl'
    cases l' with
    | stops st' => exact ⟨n, st', hl', hrc'⟩
    | goesOn ptr' st' => exact absurd hl' (hn ptr' st')

/-- `parse_all` stays in the file or fails, whatever lies behind the file, exactly for these files. -/
theorem parseAll_staysInside_iff (file : List UInt8) :
    (∀ beyond endTime, StaysInside ⟨file, beyond⟩ endTime) ↔
      ∀ start, parseHeader file = some start → Contained file start := by
  constructor
  · intro hstays start hheader
    exact contained_of_staysInside (m := ⟨file, []⟩) rfl ((hstays [] 0).2 start hheader)
  · intro hcontained beyond endTime
    refine ⟨?_, ?_⟩
    · rw [headerReads]
      split_ifs with hshort
      · exact fun r hr => absurd hr List.not_mem_nil
      · apply within_single.mpr
        rw [Nat.zero_add]
        exact Nat.le_of_not_le hshort
    · intro start hheader
      exact staysInside_of_contained (parseHeader_le hheader) (hcontained start hheader)

/-! Where the parser that looks at the file only has a result, the loop has the same. -/

end

/-- A debug record at the end of the file that speaks of an entry it does not hold. -/
def missingEntryDump : List UInt8 :=
  headerFormat.encode ⟨jitheaderMagic, jitheaderVersion, 40, 9, 8, 0, 1⟩ ++ [101, 108, 102, 0, 0, 0, 0, 0] ++
    debugFormat.encode (debugRecord 4096 [⟨4096, 7, ⟨[97], noNul_a⟩⟩] 2 0 32)

theorem recordAt_missingEntry : recordAt missingEntryDump 40 = some ⟨jitCodeDebugInfo, 32⟩ := by
  have hlength : missingEntryDump.length = 72 := by decide
  have hdecode : (prefixFormat.decode (missingEntryDump.drop 40)).id = jitCodeDebugInfo ∧
      (prefixFormat.decode (missingEntryDump.drop 40)).totalSize = 32 := by decide
  rw [recordAt, if_pos (by rw [hlength]; decide), structAt, if_pos (by rw [hlength]; decide)]
  rw [← hdecode.1, ← hdecode.2]

/-- The dump is accepted, and the table is read from behind the file. -/
theorem missing_entry_read : ¬StaysInside ⟨missingEntryDump, []⟩ 0 := by
  intro hstays
  have hwhole : WholeAt missingEntryDump 40 ⟨jitCodeDebugInfo, 32⟩ := ⟨recordAt_missingEntry, by decide⟩
  have hlength : missingEntryDump.length = 72 := by decide
  have hfits : RecordFits missingEntryDump 40 ⟨jitCodeDebugInfo, 32⟩ := by
    refine ⟨fun h => absurd h (by decide), fun h => absurd h (by decide), fun _ _ => ?_⟩
    rw [hlength]
    decide
  obtain ⟨st, hvalue, -, hwithin, hfail⟩ := readRecord_fits (m := ⟨missingEntryDump, []⟩) 0
    { entries := [], debugLines := [], rc := .ok } hfits
  have hround : (rounds ⟨missingEntryDump, []⟩ 0 40 1).value = some (.goesOn 72 st) := by
    rw [rounds_goesOn (n := 0) rfl]
    dsimp only
    rw [(parseRound_whole _ _ hwhole).1, hvalue]
    rfl
  have hheader : parseHeader missingEntryDump = some 40 := by decide
  rcases hstays.2 40 hheader with ⟨n, st', hstops, hrc⟩ | hinside
  · have hend : recordAt missingEntryDump 72 = none := by
      rw [recordAt, if_neg]
      rw [hlength]
      decide
    have hstops' : (rounds ⟨missingEntryDump, []⟩ 0 40 2).value = some (.stops st) := by
      rw [rounds_goesOn hround]
      dsimp only
      rw [parseRound_end hend, pure_value]
    have hsame := (stops_of_le hstops (Nat.le_max_left n 2)).symm.trans (stops_of_le hstops' (Nat.le_max_right n 2))
    cases hsame
    rcases hfail.mp hrc with hok | hrejected
    · cases hok
    · have hno : ¬Rejected missingEntryDump 40 ⟨jitCodeDebugInfo, 32⟩ := by
        unfold Rejected
        decide
      exact hno hrejected
  · have hcontent := (hwithin.mp ((hinside 1).state _ hround)).2
    obtain ⟨-, htable⟩ := hcontent.debugInfo rfl (by decide)
    have hcount : entryCount missingEntryDump 40 = 1 := by decide
    rw [hcount] at htable
    have hlt := lt_of_mem_drop htable.1
    dsimp only at hlt
    rw [hlength] at hlt
    exact absurd hlt (by decide)

end Oprofile.JitDump
