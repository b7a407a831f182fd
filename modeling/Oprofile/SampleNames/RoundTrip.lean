import Oprofile.SampleNames.Tokens

/-! What the reports read out of a name that the daemon has made. -/
namespace Oprofile.SampleNames

variable {host : Host} {values : MangleValues} {m text w filename filenameSpec : Text}
  {ws rest path : List Text}

/-- The markers that a component of a file name must not be. -/
def markers : List Text := [rootMarker, kernMarker, anonMarker, depMarker, cgMarker]

/-- A file name without backslash and without a component equal to a marker. -/
structure FileName (name : Text) : Prop where
  noBackslash : '\\' ∉ name
  noMarker : ∀ w ∈ Words.words '/' name, w ∉ markers

/-- A name with a slash in front, and only one. -/
def fileText (name : Text) : Text :=
  match name with
  | '/' :: rest => '/' :: rest
  | name => '/' :: name

/-- The components of the name, each after a slash, give it back. -/
def Canonical (name : Text) : Prop := Words.lead '/' (Words.words '/' name) = fileText name

/-- `<region name> (tgid:<tgid> range:<start>-<end>)`. -/
def anonText (name : Text) (a : AnonMapping) : Text :=
  name ++ [' ', '(', 't', 'g', 'i', 'd', ':'] ++ printU a.tgid ++
    [' ', 'r', 'a', 'n', 'g', 'e', ':'] ++ ('0' :: 'x' :: printX a.start) ++ ['-'] ++
    ('0' :: 'x' :: printX a.stop) ++ [')']

theorem plain_hex (x : UInt64) : Plain ('0' :: 'x' :: printX x) :=
  plain_cons (plain_cons (plain_printX x) (by decide)) (by decide)

/-- The parts of the event specification. -/
def eventParts (values : MangleValues) : List Text :=
  [printD values.count, printD values.unitMask.toInt32,
    if values.flags.tgid then printD values.tgid else allName,
    if values.flags.tid then printD values.tid else allName,
    if values.flags.cpu then printD values.cpu else allName]

theorem eventParts_plain : ∀ w ∈ eventParts values, Plain w := by
  have hid : ∀ (b : Bool) (x : Int32), Plain (if b then printD x else allName) := by
    intro b x
    cases b
    · exact plain_allName
    · exact plain_printD x
  intro w hw
  simp only [eventParts, List.mem_cons, List.not_mem_nil, or_false] at hw
  rcases hw with rfl | rfl | rfl | rfl | rfl
  · exact plain_printD _
  · exact plain_printD _
  · exact hid _ _
  · exact hid _ _
  · exact hid _ _

theorem eventSpec_eq : eventSpec values = values.eventName ++ Words.lead '.' (eventParts values) := by
  simp [eventSpec, eventParts, Words.lead]

theorem eventParts_tokens : ∀ w ∈ eventParts values, w ≠ [] ∧ Token '.' w := fun w hw =>
  ⟨(eventParts_plain w hw).nonempty, (eventParts_plain w hw).token (eventParts_plain w hw).noDot⟩

/-- The parsed event specification. -/
def parsedSpec (values : MangleValues) : ParsedFilename where
  image := []
  libImage := []
  cgImage := []
  event := values.eventName
  count := printD values.count
  unitmask := printD values.unitMask.toInt32
  tgid := if values.flags.tgid then printD values.tgid else allName
  tid := if values.flags.tid then printD values.tid else allName
  cpu := if values.flags.cpu then printD values.cpu else allName
  filename := []
  jitDumpfileExists := false

theorem parseEventSpec_eventSpec (hdot : '.' ∉ values.eventName) (hne : values.eventName ≠ [])
    (hend : values.eventName.getLast? ≠ some '\\') :
    parseEventSpec (eventSpec values) = .ok (parsedSpec values) := by
  have htokens : separateToken (eventSpec values) '.' = values.eventName :: eventParts values := by
    rw [eventSpec_eq]
    exact separateToken_append_lead (by decide) ⟨hdot, hend⟩ hne eventParts_tokens
  have hfull : [] ∉ values.eventName :: eventParts values := by
    intro hmem
    rcases List.mem_cons.mp hmem with h | h
    · exact hne h.symm
    · exact (eventParts_plain _ h).nonempty rfl
  simp only [eventParts] at htokens hfull
  simp only [parseEventSpec, htokens, if_neg hfull, parsedSpec]

/-- The dot after a name that ends in a backslash is taken for a character of the name. -/
theorem separateToken_escaped {e : Text} (hdot : '.' ∉ e) (hname : values.eventName = e ++ ['\\']) :
    separateToken (eventSpec values) '.' =
      (e ++ ['.'] ++ printD values.count) :: (eventParts values).tail := by
  have hsplit : eventSpec values = e ++ '\\' :: '.' :: (printD values.count ++
      Words.lead '.' (eventParts values).tail) := by
    rw [eventSpec_eq, hname]
    simp only [eventParts, Words.lead, List.flatMap_cons, List.append_assoc, List.cons_append,
      List.nil_append, List.tail_cons]
  have hcount := plain_printD values.count
  have hne : e ++ ['.'] ++ printD values.count ≠ [] :=
    List.append_ne_nil_of_right_ne_nil _ hcount.nonempty
  rw [separateToken, hsplit, separateTokenLoop_escape (by decide) hdot, List.nil_append]
  refine separateTokenLoop_append_lead (by decide) (hcount.token hcount.noDot) hne fun v hv => ?_
  exact eventParts_tokens v (List.mem_of_mem_tail hv)

/-- An event name that is empty or ends in a backslash is not read back. -/
theorem parseEventSpec_bad (hdot : '.' ∉ values.eventName)
    (hbad : values.eventName = [] ∨ values.eventName.getLast? = some '\\') :
    parseEventSpec (eventSpec values) = .error (.badEventSpecification (eventSpec values)) := by
  rcases hbad with hnil | hback
  · have htokens : separateToken (eventSpec values) '.' = [] :: eventParts values := by
      rw [eventSpec_eq, hnil, List.nil_append]
      exact separateToken_lead (by decide) (by simp [eventParts]) eventParts_tokens
    simp only [eventParts] at htokens
    simp only [parseEventSpec, htokens, List.mem_cons, true_or, if_true]
  · obtain ⟨e, he⟩ : ∃ e, values.eventName = e ++ ['\\'] := List.getLast?_eq_some_iff.mp hback
    have hedot : '.' ∉ e := fun h => hdot (he ▸ List.mem_append_left _ h)
    have htokens := separateToken_escaped hedot he
    simp only [eventParts, List.tail_cons] at htokens
    simp only [parseEventSpec, htokens]

theorem mangleAnon_eq (a : AnonMapping) : mangleAnon a = printU a.tgid ++
    Words.lead '.' ['0' :: 'x' :: printX a.start, '0' :: 'x' :: printX a.stop] := by
  simp [mangleAnon, Words.lead]

theorem separateToken_mangleAnon (a : AnonMapping) : separateToken (mangleAnon a) '.' =
    [printU a.tgid, '0' :: 'x' :: printX a.start, '0' :: 'x' :: printX a.stop] := by
  have htgid := plain_printU a.tgid
  rw [mangleAnon_eq]
  refine separateToken_append_lead (by decide) (htgid.token htgid.noDot) htgid.nonempty ?_
  intro v hv
  simp only [List.mem_cons, List.not_mem_nil, or_false] at hv
  rcases hv with rfl | rfl
  · exact ⟨(plain_hex _).nonempty, (plain_hex _).token (plain_hex _).noDot⟩
  · exact ⟨(plain_hex _).nonempty, (plain_hex _).token (plain_hex _).noDot⟩

theorem mangleAnon_count (a : AnonMapping) : 2 ≤ (mangleAnon a).count '.' := by
  rw [mangleAnon]
  simp only [List.count_append, List.count_cons]
  simp
  omega

/-- The recorded form of an anonymous region is one component. -/
theorem not_mem_mangleAnon {c : Char} (a : AnonMapping) (hc : c ∈ ['/', '\\', '(']) :
    c ∉ mangleAnon a := by
  have hparts : ∀ w, Plain w → c ∉ w := by
    intro w hw
    simp only [List.mem_cons, List.not_mem_nil, or_false] at hc
    rcases hc with rfl | rfl | rfl
    · exact hw.noSlash
    · exact hw.noBackslash
    · exact hw.noParen
  have hdot : c ≠ '.' := by
    rintro rfl
    exact absurd hc (by decide)
  intro h
  rw [mangleAnon_eq, List.mem_append] at h
  rcases h with h | h
  · exact hparts _ (plain_printU _) h
  · obtain ⟨w, hw, h⟩ := List.mem_flatMap.mp h
    rcases List.mem_cons.mp h with h | h
    · exact hdot h
    · simp only [List.mem_cons, List.not_mem_nil, or_false] at hw
      rcases hw with rfl | rfl
      · exact hparts _ (plain_hex _) h
      · exact hparts _ (plain_hex _) h

theorem parseAnon_mangleAnon (a : AnonMapping) (name : Text) :
    parseAnon (mangleAnon a) (anonColon ++ name ++ ['}']) = .ok (anonText name a) := by
  have hdrop : (anonColon ++ name ++ ['}']).drop 6 = name ++ ['}'] := by
    rw [List.append_assoc]
    exact List.drop_left' rfl
  simp only [parseAnon, hdrop, separateToken_mangleAnon]
  simp [anonText]

/-- How a marker and the components after it are shown. -/
inductive Shown : Text → List Text → Text → Prop
  | plain {m : Text} {ws : List Text} (hm : m = rootMarker ∨ m = kernMarker)
      (hws : cgMarker ∉ ws) : Shown m ws (Words.lead '/' ws)
  | anon (a : AnonMapping) (name : Text) :
      Shown (anonColon ++ name ++ ['}']) [mangleAnon a] (anonText name a)

theorem isPrefixOf_anonMarker (name : Text) :
    anonOpen.isPrefixOf (anonColon ++ name ++ ['}']) = true ∧
    anonColon.isPrefixOf (anonColon ++ name ++ ['}']) = true := by
  have hopen : anonColon ++ name ++ ['}'] = anonOpen ++ (':' :: (name ++ ['}'])) := by
    simp [anonColon]
  refine ⟨?_, ?_⟩
  · rw [List.isPrefixOf_iff_prefix, hopen]
    exact List.prefix_append _ _
  · rw [List.isPrefixOf_iff_prefix, List.append_assoc]
    exact List.prefix_append _ _

theorem Shown.isSideMarker (h : Shown m ws text) : isSideMarker m = true := by
  cases h with
  | plain hm hws =>
    rcases hm with rfl | rfl
    · rfl
    · rfl
  | anon a name =>
    simp only [SampleNames.isSideMarker, (isPrefixOf_anonMarker name).1, Bool.or_true]

theorem not_isPrefixOf_plain (hm : m = rootMarker ∨ m = kernMarker) :
    anonOpen.isPrefixOf m = false ∧ anonColon.isPrefixOf m = false := by
  rcases hm with rfl | rfl
  · exact ⟨rfl, rfl⟩
  · exact ⟨rfl, rfl⟩

/-- The image is shown; what follows it is a call graph part or nothing. -/
theorem parseLib_shown (hjo : ∀ p, host.fileExists (p ++ ['.', 'j', 'o']) = false)
    (hdots : anonColon.isPrefixOf m = true → 2 ≤ filenameSpec.count '.')
    (h : Shown m ws text) (hrest : rest = [] ∨ ∃ tail, rest = cgMarker :: tail) :
    parseLib host filenameSpec m (ws ++ rest) = .ok (text, false, rest) := by
  cases h with
  | plain hm hws =>
    have hall : ∀ w ∈ ws, (decide (w ≠ cgMarker)) = true := fun w hw =>
      decide_eq_true fun heq => hws (heq ▸ hw)
    simp only [parseLib, (not_isPrefixOf_plain hm).2, Bool.false_eq_true, if_false]
    rw [List.takeWhile_append_of_pos hall, List.dropWhile_append_of_pos hall]
    rcases hrest with rfl | ⟨tail, rfl⟩
    · simp
    · simp
  | anon a name =>
    have hprefix := (isPrefixOf_anonMarker name).2
    have hne : mangleAnon a ≠ cgMarker := fun heq => by
      have hcount := mangleAnon_count a
      rw [heq] at hcount
      exact absurd hcount (by decide)
    obtain ⟨pos, hpos⟩ := secondLastDot_of_count (hdots hprefix)
    simp only [parseLib, hprefix, if_true, List.cons_append, List.nil_append, if_neg hne, hpos, hjo,
      Bool.false_eq_true, if_false, parseAnon_mangleAnon, Except.map]

theorem parseCg_shown (h : Shown m ws text) :
    parseCg filename (cgMarker :: m :: ws) = .ok text := by
  have hside := h.isSideMarker
  cases h with
  | plain hm hws =>
    simp only [parseCg, hside, (not_isPrefixOf_plain hm).1, not_true, if_false, Bool.false_eq_true]
  | anon a name =>
    simp only [parseCg, hside, (isPrefixOf_anonMarker name).1, not_true, if_false, if_true,
      parseAnon_mangleAnon]

/-- The call graph part of a path, and how it is shown. -/
inductive ShownCaller : List Text → Text → Prop
  | none : ShownCaller [] []
  | some {m : Text} {ws : List Text} {text : Text} (h : Shown m ws text) :
      ShownCaller (cgMarker :: m :: ws) text

theorem parsePath_shown {root libText cgText : Text} {app : List Text}
    (hjo : ∀ p, host.fileExists (p ++ ['.', 'j', 'o']) = false)
    (hdots : anonColon.isPrefixOf m = true → 2 ≤ filenameSpec.count '.')
    (happ : depMarker ∉ app) (hlib : Shown m ws libText) (hcg : ShownCaller rest cgText) :
    parsePath host filename filenameSpec (root :: (app ++ depMarker :: m :: (ws ++ rest))) =
      .ok (Words.lead '/' app, libText, false, cgText) := by
  have hall : ∀ w ∈ app, (decide (w ≠ depMarker)) = true := fun w hw =>
    decide_eq_true fun heq => happ (heq ▸ hw)
  have hlong : ¬ (root :: (app ++ depMarker :: m :: (ws ++ rest))).length < 2 := by
    simp only [List.length_cons, List.length_append]
    omega
  have hdrop : (root :: (app ++ depMarker :: m :: (ws ++ rest))).drop 1 =
      app ++ depMarker :: m :: (ws ++ rest) := rfl
  have hhead : (depMarker :: m :: (ws ++ rest)).dropWhile (fun w => decide (w ≠ depMarker)) =
      depMarker :: m :: (ws ++ rest) := by simp
  have htake : (depMarker :: m :: (ws ++ rest)).takeWhile (fun w => decide (w ≠ depMarker)) = [] := by
    simp
  have hparts : rest = [] ∨ ∃ tail, rest = cgMarker :: tail := by
    cases hcg with
    | none => exact Or.inl rfl
    | some h => exact Or.inr ⟨_, rfl⟩
  have hcaller : parseCg filename rest = .ok cgText := by
    cases hcg with
    | none => rfl
    | some h => exact parseCg_shown h
  rw [parsePath, if_neg hlong, hdrop, List.dropWhile_append_of_pos hall, hhead,
    List.takeWhile_append_of_pos hall, htake, List.append_nil]
  simp only [hlib.isSideMarker, not_true, if_false, parseLib_shown hjo hdots hlib hparts]
  show (parseCg filename rest).bind _ = _
  rw [hcaller]
  rfl

/-- The tokens of a squeezed path: its words, perhaps after an empty one. -/
theorem parseFilename_squeezed {spec dirs : Text} (hspec : '/' ∉ spec) (hne : spec ≠ [])
    (hend : ∀ w ∈ Words.words '/' dirs, w.getLast? ≠ some '\\') (hdirs : Words.words '/' dirs ≠ []) :
    ∃ filenameSpec lead, (lead = [] ∨ lead = [[]]) ∧
      (∀ w ∈ Words.words '/' dirs, w.count '.' ≤ filenameSpec.count '.') ∧
      splitLastSlash (Words.squeeze '/' (dirs ++ '/' :: spec)) = some (filenameSpec, spec) ∧
      separateToken filenameSpec '/' = lead ++ Words.words '/' dirs := by
  have htokens : ∀ w ∈ Words.words '/' dirs, w ≠ [] ∧ Token '/' w := by
    intro w hw
    obtain ⟨hwne, hmem⟩ := Words.mem_words hw
    exact ⟨hwne, fun hslash => (hmem _ hslash).2 rfl, hend w hw⟩
  have hcount : ∀ (ws : List Text), ∀ w ∈ ws, w.count '.' ≤ (Words.lead '/' ws).count '.' := by
    intro ws w hw
    obtain ⟨l, r, rfl⟩ := List.append_of_mem hw
    simp only [Words.lead, List.flatMap_append, List.flatMap_cons, List.count_append, List.count_cons]
    omega
  rcases Words.squeeze_append hspec hne dirs with h | ⟨w, ws, hws, h⟩
  · refine ⟨Words.lead '/' (Words.words '/' dirs), [[]], Or.inr rfl, hcount _, ?_, ?_⟩
    · rw [h, Words.lead_append, Words.lead_singleton]
      exact splitLastSlash_append _ hspec
    · exact separateToken_lead (by decide) hdirs htokens
  · rw [hws] at htokens ⊢
    obtain ⟨hw, htokens⟩ := List.forall_mem_cons.mp htokens
    refine ⟨w ++ Words.lead '/' ws, [], Or.inl rfl, ?_, ?_, ?_⟩
    · intro v hv
      rw [List.count_append]
      rcases List.mem_cons.mp hv with rfl | hv
      · omega
      · have := hcount ws v hv
        omega
    · rw [h, Words.lead_append, Words.lead_singleton, ← List.append_assoc]
      exact splitLastSlash_append _ hspec
    · rw [separateToken_append_lead (by decide) hw.2 hw.1 htokens]
      rfl

theorem removeBaseDir_append {base : List Text} {root : Text} {tail : List Text}
    (hbase : ∀ w ∈ base, w ∉ markers) (hroot : root = rootMarker ∨ root = kernMarker) :
    removeBaseDir (base ++ root :: tail) = root :: tail := by
  have hall : ∀ w ∈ base,
      decide (w ≠ rootMarker ∧ w ≠ kernMarker ∧ w ≠ anonMarker) = true := by
    intro w hw
    have hnot := hbase w hw
    simp only [markers, List.mem_cons, List.not_mem_nil, or_false, not_or] at hnot
    exact decide_eq_true ⟨hnot.1, hnot.2.1, hnot.2.2.1⟩
  rw [removeBaseDir, List.dropWhile_append_of_pos hall]
  rcases hroot with rfl | rfl
  · simp
  · simp

/-- A mangled name, with its directories given by their words. -/
theorem parseFilename_shown {spec dirs root libText cgText : Text} {base app : List Text}
    (hjo : ∀ p, host.fileExists (p ++ ['.', 'j', 'o']) = false)
    (hspec : '/' ∉ spec) (hne : spec ≠ [])
    (hend : ∀ w ∈ Words.words '/' dirs, w.getLast? ≠ some '\\')
    (hwords : Words.words '/' dirs = base ++ root :: (app ++ depMarker :: m :: (ws ++ rest)))
    (hbase : ∀ w ∈ base, w ∉ markers) (hroot : root = rootMarker ∨ root = kernMarker)
    (happ : depMarker ∉ app) (hlib : Shown m ws libText) (hcg : ShownCaller rest cgText) :
    parseFilename host (Words.squeeze '/' (dirs ++ '/' :: spec)) =
      (parseEventSpec spec).map fun result =>
        { result with
          image := Words.lead '/' app, libImage := libText, cgImage := cgText,
          filename := Words.squeeze '/' (dirs ++ '/' :: spec), jitDumpfileExists := false } := by
  have hdirs : Words.words '/' dirs ≠ [] := by
    rw [hwords]
    simp
  obtain ⟨filenameSpec, lead, hlead, hcount, hsplit, hpath⟩ :=
    parseFilename_squeezed hspec hne hend hdirs
  have hdots : anonColon.isPrefixOf m = true → 2 ≤ filenameSpec.count '.' := by
    intro hanon
    cases hlib with
    | plain hm hws => simp [(not_isPrefixOf_plain hm).2] at hanon
    | anon a name =>
      have hmem : mangleAnon a ∈ Words.words '/' dirs := by
        rw [hwords]
        simp
      exact (mangleAnon_count a).trans (hcount _ hmem)
  have hremove : removeBaseDir (lead ++ Words.words '/' dirs) =
      root :: (app ++ depMarker :: m :: (ws ++ rest)) := by
    rw [hwords, ← List.append_assoc]
    refine removeBaseDir_append (fun w hw => ?_) hroot
    rcases List.mem_append.mp hw with hw | hw
    · rcases hlead with rfl | rfl
      · cases hw
      · rw [List.mem_singleton.mp hw]
        decide
    · exact hbase w hw
  rw [parseFilename, hsplit]
  simp only [hpath, hremove, parsePath_shown hjo hdots happ hlib hcg]
  cases parseEventSpec spec with
  | error err => rfl
  | ok result => rfl

/-- `"samples"` and `"current"`. -/
def samplesDirs : List Text := [['s', 'a', 'm', 'p', 'l', 'e', 's'], ['c', 'u', 'r', 'r', 'e', 'n', 't']]

/-- The call graph part of a mangled name. -/
def callerWords (values : MangleValues) : List Text :=
  match values.cgImageName with
  | some cgImageName =>
    if values.flags.callgraph then
      cgMarker :: imageMarker values.flags values.flags.cgAnon cgImageName values.anonName ::
        Words.words '/' cgImageName
    else []
  | none => []

theorem words_samplesDir (sessionDir tail : Text) :
    Words.words '/' (opSamplesCurrentDir sessionDir ++ tail) =
      Words.words '/' sessionDir ++ (samplesDirs ++ Words.words '/' tail) := by
  have heq : opSamplesCurrentDir sessionDir ++ tail = sessionDir ++ '/' ::
      (['s', 'a', 'm', 'p', 'l', 'e', 's'] ++ '/' :: ('/' ::
        (['c', 'u', 'r', 'r', 'e', 'n', 't'] ++ '/' :: tail))) := by
    simp [opSamplesCurrentDir]
  rw [heq, Words.words_append_sep, Words.words_word (by decide) (by decide), Words.words_sep,
    Words.words_word (by decide) (by decide)]
  rfl

/-- A marker is one component. -/
theorem imageMarker_word (flags : MangleFlags) (anon : Bool) (name : Text) (anonName : Option Text)
    (h : ∀ a, anonName = some a → '/' ∉ a) :
    '/' ∉ imageMarker flags anon name anonName ∧ imageMarker flags anon name anonName ≠ [] := by
  unfold imageMarker
  split_ifs
  · exact ⟨by decide, by decide⟩
  · split
    · rename_i a
      have ha := h a rfl
      refine ⟨?_, by simp⟩
      simp only [List.mem_append, not_or]
      exact ⟨⟨by decide, ha⟩, by decide⟩
    · exact ⟨by decide, by decide⟩

/-- The directories of a mangled name. -/
theorem opMangleFilename_words (sessionDir : Text) (values : MangleValues)
    (h : ∀ a, values.anonName = some a → '/' ∉ a) :
    ∃ dirs, opMangleFilename sessionDir values = dirs ++ '/' :: eventSpec values ∧
      Words.words '/' dirs = (Words.words '/' sessionDir ++ samplesDirs) ++
        imageMarker values.flags false values.depName values.anonName ::
          (Words.words '/' values.depName ++ depMarker ::
            imageMarker values.flags values.flags.anon values.imageName values.anonName ::
              (Words.words '/' values.imageName ++ callerWords values)) := by
  obtain ⟨hroot, hroot'⟩ := imageMarker_word values.flags false values.depName values.anonName h
  obtain ⟨hlib, hlib'⟩ :=
    imageMarker_word values.flags values.flags.anon values.imageName values.anonName h
  -- everything up to the image, with what follows it
  have hfront : ∀ tail, Words.words '/' (opSamplesCurrentDir sessionDir ++
      (imageMarker values.flags false values.depName values.anonName ++ '/' :: (values.depName ++
        '/' :: (depMarker ++ '/' ::
          (imageMarker values.flags values.flags.anon values.imageName values.anonName ++ '/' ::
            tail))))) = (Words.words '/' sessionDir ++ samplesDirs) ++
        imageMarker values.flags false values.depName values.anonName ::
          (Words.words '/' values.depName ++ depMarker ::
            imageMarker values.flags values.flags.anon values.imageName values.anonName ::
              Words.words '/' tail) := by
    intro tail
    rw [words_samplesDir, Words.words_word hroot hroot', Words.words_append_sep,
      Words.words_word (by decide) (by decide), Words.words_word hlib hlib', List.append_assoc]
  by_cases hcg : ∃ cgImageName, values.cgImageName = some cgImageName ∧ values.flags.callgraph = true
  · obtain ⟨cgImageName, hname, hcallgraph⟩ := hcg
    obtain ⟨hcaller, hcaller'⟩ :=
      imageMarker_word values.flags values.flags.cgAnon cgImageName values.anonName h
    refine ⟨_, ?_, (hfront (values.imageName ++ '/' :: (cgMarker ++ '/' ::
      (imageMarker values.flags values.flags.cgAnon cgImageName values.anonName ++ '/' ::
        cgImageName)))).trans ?_⟩
    · simp [opMangleFilename, appendImage, hname, hcallgraph]
    · rw [Words.words_append_sep, Words.words_word (by decide) (by decide),
        Words.words_word hcaller hcaller', callerWords, hname]
      simp only [hcallgraph, if_true]
  · have hnone : callerWords values = [] := by
      unfold callerWords
      split
      · rename_i cgImageName hname
        rw [if_neg fun hcallgraph => hcg ⟨cgImageName, hname, hcallgraph⟩]
      · rfl
    refine ⟨_, ?_, (hfront values.imageName).trans ?_⟩
    · simp only [opMangleFilename, appendImage]
      split
      · rename_i cgImageName hname
        rw [if_neg fun hcallgraph => hcg ⟨cgImageName, hname, hcallgraph⟩]
        simp
      · simp
    · rw [hnone, List.append_nil]

end Oprofile.SampleNames
