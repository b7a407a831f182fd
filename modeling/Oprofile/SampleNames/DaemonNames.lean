import Oprofile.SampleNames.RoundTrip

/-! When a sample file of the daemon is read back as what it was named after. -/
namespace Oprofile.SampleNames

variable {d : Daemon} {event : OpdEvent} {last sf side : Sfile} {cg : Bool} {values : MangleValues}
  {name : Text} {a : AnonMapping} {flags : MangleFlags} {region : Option Text}

/-- What `mangle_filename` passes on, field by field. -/
structure MangledFrom (d : Daemon) (event : OpdEvent) (last sf : Sfile) (cg : Bool)
    (values : MangleValues) : Prop where
  image : sideName d sf = some values.imageName
  dep : values.depName = (getDepName d sf).getD values.imageName
  event : values.eventName = event.name
  kernel : values.flags.kernel = sf.kernel.isSome
  anon : values.flags.anon = sf.isAnonSide
  cgAnon : values.flags.cgAnon = (cg && last.isAnonSide)
  callgraph : values.flags.callgraph = cg
  region : values.anonName = if cg && last.isAnonSide then last.anon.map (·.name)
    else if sf.isAnonSide then sf.anon.map (·.name) else none
  caller : cg = true → ∃ name, sideName d last = some name ∧ values.cgImageName = some name
  noCaller : cg = false → values.cgImageName = none

theorem mangleValues_from (h : mangleValues d event last sf cg = some values) :
    MangledFrom d event last sf cg values := by
  simp only [mangleValues, Option.bind_eq_bind, Option.bind_eq_some_iff] at h
  obtain ⟨imageName, himage, h⟩ := h
  cases cg with
  | true =>
    simp only [if_true, Option.bind_eq_some_iff, Option.some.injEq] at h
    obtain ⟨cgImageName, hcaller, rfl⟩ := h
    exact ⟨himage, rfl, rfl, rfl, rfl, rfl, rfl, rfl, fun _ => ⟨cgImageName, hcaller, rfl⟩,
      fun hno => by cases hno⟩
  | false =>
    simp only [Bool.false_eq_true, if_false, Option.some.injEq] at h
    subst h
    exact ⟨himage, rfl, rfl, rfl, rfl, rfl, rfl, rfl, fun hno => (by cases hno), fun _ => rfl⟩

/-- The sides that are anonymous. -/
theorem isAnonSide_iff : side.isAnonSide = true ↔ side.kernel = none ∧ ∃ a, side.anon = some a := by
  cases hk : side.kernel <;> cases ha : side.anon <;> simp [Sfile.isAnonSide, hk, ha]

theorem isAnonSide_eq_false_iff :
    side.isAnonSide = false ↔ side.kernel ≠ none ∨ side.anon = none := by
  cases hk : side.kernel <;> cases ha : side.anon <;> simp [Sfile.isAnonSide, hk, ha]

/-- What a side is to be read back as. -/
def sideText (d : Daemon) (sf : Sfile) : Text :=
  match sf.kernel, sf.anon with
  | some kernel, _ => fileText kernel
  | none, some anon => anonText anon.name anon
  | none, none => fileText ((d.findCookie sf.cookie).getD [])

/-- The file names that the daemon is given are without backslashes and markers. -/
structure NamesOk (d : Daemon) (side : Sfile) : Prop where
  cookie : ∀ cookie name, d.findCookie cookie = some name → FileName name
  kernel : ∀ name, side.kernel = some name → FileName name
  region : ∀ a, side.anon = some a → '/' ∉ a.name

theorem sideName_of_anon (h : side.kernel = none) (ha : side.anon = some a) :
    sideName d side = some (mangleAnon a) := by
  simp only [sideName, h, ha]

theorem sideName_file (hok : NamesOk d side) (hside : side.isAnonSide = false)
    (h : sideName d side = some name) : FileName name ∧ sideText d side = fileText name := by
  rcases isAnonSide_eq_false_iff.mp hside with hk | ha
  · obtain ⟨kernel, hk⟩ := Option.ne_none_iff_exists'.mp hk
    simp only [sideName, hk, Option.some.injEq] at h
    subst h
    exact ⟨hok.kernel _ hk, by simp only [sideText, hk]⟩
  · cases hk : side.kernel with
    | some kernel =>
      simp only [sideName, hk, Option.some.injEq] at h
      subst h
      exact ⟨hok.kernel _ hk, by simp only [sideText, hk]⟩
    | none =>
      simp only [sideName, hk, ha] at h
      exact ⟨hok.cookie _ _ h, by simp only [sideText, hk, ha, h, Option.getD_some]⟩

theorem words_mangleAnon (a : AnonMapping) : Words.words '/' (mangleAnon a) = [mangleAnon a] := by
  refine Words.words_of_not_mem (not_mem_mangleAnon a (by decide)) fun h => ?_
  have hcount := mangleAnon_count a
  rw [h] at hcount
  exact absurd hcount (by decide)

theorem mangleAnon_not_marker (a : AnonMapping) : mangleAnon a ∉ markers := by
  intro h
  have hcount := mangleAnon_count a
  simp only [markers, List.mem_cons, List.not_mem_nil, or_false] at h
  rcases h with h | h | h | h | h <;> rw [h] at hcount <;> exact absurd hcount (by decide)

theorem fileName_mangleAnon (a : AnonMapping) : FileName (mangleAnon a) := by
  refine ⟨not_mem_mangleAnon a (by decide), fun w hw => ?_⟩
  rw [words_mangleAnon, List.mem_singleton] at hw
  rw [hw]
  exact mangleAnon_not_marker a

/-- Every name in a mangled name is a file name or the recorded form of a region. -/
theorem sideName_fileName (hok : NamesOk d side) (h : sideName d side = some name) :
    FileName name := by
  by_cases hside : side.isAnonSide = true
  · obtain ⟨hk, a, ha⟩ := isAnonSide_iff.mp hside
    rw [sideName_of_anon hk ha, Option.some_inj] at h
    rw [← h]
    exact fileName_mangleAnon a
  · exact (sideName_file hok (Bool.not_eq_true _ ▸ hside) h).1

theorem depName_fileName (hok : NamesOk d sf) (h : MangledFrom d event last sf cg values) :
    FileName values.depName := by
  have himage := sideName_fileName hok h.image
  have hcookie : ∀ cookie, FileName ((d.findCookie cookie).getD values.imageName) := by
    intro cookie
    cases hc : d.findCookie cookie with
    | none => exact himage
    | some name => exact hok.cookie _ _ hc
  rw [h.dep]
  unfold getDepName
  split_ifs
  · exact hcookie _
  · exact himage
  · exact himage
  · exact himage
  · exact hcookie _

/-- What is read back for a side: a region keeps its kind only if the kernel flag is not set. -/
def shownText (kernelFlag : Bool) (region : Option Text) (side : Sfile) (name : Text) : Text :=
  match side.kernel, side.anon, kernelFlag with
  | none, some anon, false => anonText (region.getD []) anon
  | _, _, _ => Words.lead '/' (Words.words '/' name)

theorem imageMarker_not_anon : imageMarker flags false name region = rootMarker ∨
    imageMarker flags false name region = kernMarker := by
  unfold imageMarker
  split_ifs
  · exact Or.inr rfl
  · exact Or.inl rfl

theorem FileName.noCg (h : FileName name) : cgMarker ∉ Words.words '/' name := fun hmem =>
  h.noMarker _ hmem (by decide)

theorem FileName.noDep (h : FileName name) : depMarker ∉ Words.words '/' name := fun hmem =>
  h.noMarker _ hmem (by decide)

theorem side_shown (hok : NamesOk d side) (hname : sideName d side = some name)
    (hregion : side.isAnonSide = true → flags.kernel = false → ∃ r, region = some r) :
    Shown (imageMarker flags side.isAnonSide name region) (Words.words '/' name)
      (shownText flags.kernel region side name) := by
  have hfile := sideName_fileName hok hname
  by_cases hside : side.isAnonSide = true
  · obtain ⟨hk, a, ha⟩ := isAnonSide_iff.mp hside
    have hmangled : name = mangleAnon a := by
      rw [sideName_of_anon hk ha, Option.some_inj] at hname
      exact hname.symm
    subst hmangled
    cases hflag : flags.kernel with
    | true =>
      have hmarker : imageMarker flags side.isAnonSide (mangleAnon a) region = kernMarker := by
        unfold imageMarker
        rw [if_pos ⟨hflag, not_mem_mangleAnon a (by decide)⟩]
      have htext : shownText true region side (mangleAnon a) =
          Words.lead '/' (Words.words '/' (mangleAnon a)) := by
        simp only [shownText, hk, ha]
      rw [hmarker, htext]
      exact Shown.plain (Or.inr rfl) hfile.noCg
    | false =>
      obtain ⟨r, rfl⟩ := hregion hside hflag
      have hmarker : imageMarker flags side.isAnonSide (mangleAnon a) (some r) =
          anonColon ++ r ++ ['}'] := by
        simp only [imageMarker, hflag, hside, Bool.false_eq_true, false_and, if_false]
      have htext : shownText false (some r) side (mangleAnon a) = anonText r a := by
        simp only [shownText, hk, ha, Option.getD_some]
      rw [hmarker, htext, words_mangleAnon]
      exact Shown.anon a r
  · have hside' : side.isAnonSide = false := Bool.not_eq_true _ ▸ hside
    have htext : shownText flags.kernel region side name =
        Words.lead '/' (Words.words '/' name) := by
      rcases isAnonSide_eq_false_iff.mp hside' with hk | ha
      · obtain ⟨kernel, hk⟩ := Option.ne_none_iff_exists'.mp hk
        simp only [shownText, hk]
      · cases hk : side.kernel <;> simp only [shownText, hk, ha]
    rw [htext, hside']
    exact Shown.plain imageMarker_not_anon hfile.noCg

theorem anonText_inj {r r' : Text} : anonText r a = anonText r' a ↔ r = r' := by
  simp only [anonText, List.append_assoc, List.append_cancel_right_eq]

/-- A side is read back as it should be: a file by its canonical name, a region by its own name. -/
theorem shownText_eq_iff {kernelFlag : Bool} (hok : NamesOk d side)
    (hname : sideName d side = some name)
    (hregion : side.isAnonSide = true → kernelFlag = false → ∃ r, region = some r) :
    shownText kernelFlag region side name = sideText d side ↔
      (side.isAnonSide = false → Canonical name) ∧
      ∀ a, side.kernel = none → side.anon = some a → kernelFlag = false ∧ region = some a.name := by
  by_cases hside : side.isAnonSide = true
  · obtain ⟨hk, a, ha⟩ := isAnonSide_iff.mp hside
    have hmangled : name = mangleAnon a := by
      rw [sideName_of_anon hk ha, Option.some_inj] at hname
      exact hname.symm
    have hexpected : sideText d side = anonText a.name a := by simp only [sideText, hk, ha]
    rw [hexpected]
    cases kernelFlag with
    | true =>
      have htext : shownText true region side name = '/' :: mangleAnon a := by
        simp only [shownText, hk, ha, hmangled, words_mangleAnon, Words.lead_singleton]
      rw [htext]
      constructor
      · intro heq
        -- a region is shown with a parenthesis, which no recorded form has
        have hparen : '(' ∈ '/' :: mangleAnon a := by
          rw [heq]
          simp [anonText]
        rcases List.mem_cons.mp hparen with h | h
        · exact absurd h (by decide)
        · exact absurd h (not_mem_mangleAnon a (by decide))
      · rintro ⟨-, h⟩
        exact absurd (h a hk ha).1 (by decide)
    | false =>
      obtain ⟨r, rfl⟩ := hregion hside rfl
      have htext : shownText false (some r) side name = anonText r a := by
        simp only [shownText, hk, ha, Option.getD_some]
      rw [htext, anonText_inj]
      constructor
      · rintro rfl
        refine ⟨fun hno => absurd (hside.symm.trans hno) (by decide), fun a' _ ha' => ⟨rfl, ?_⟩⟩
        rw [ha] at ha'
        cases ha'
        rfl
      · rintro ⟨-, h⟩
        exact Option.some_inj.mp (h a hk ha).2
  · have hside' : side.isAnonSide = false := Bool.not_eq_true _ ▸ hside
    obtain ⟨-, hexpected⟩ := sideName_file hok hside' hname
    have htext : shownText kernelFlag region side name =
        Words.lead '/' (Words.words '/' name) := by
      rcases isAnonSide_eq_false_iff.mp hside' with hk | ha
      · obtain ⟨kernel, hk⟩ := Option.ne_none_iff_exists'.mp hk
        simp only [shownText, hk]
      · cases hk : side.kernel <;> simp only [shownText, hk, ha]
    rw [htext, hexpected]
    refine ⟨fun h => ⟨fun _ => h, fun a hk ha => ?_⟩, fun h => h.1 hside'⟩
    exact absurd (isAnonSide_iff.mpr ⟨hk, a, ha⟩) hside

theorem FileName.getLast (h : FileName name) {w : Text} (hw : w ∈ Words.words '/' name) :
    w.getLast? ≠ some '\\' := fun hlast =>
  h.noBackslash ((Words.mem_words hw).2 _ (List.mem_of_getLast? hlast)).1

theorem imageMarker_getLast (flags : MangleFlags) (anon : Bool) (name : Text) (region : Option Text) :
    (imageMarker flags anon name region).getLast? ≠ some '\\' := by
  unfold imageMarker
  split_ifs
  · decide
  · split
    · simp
    · decide

theorem eventSpec_chars (hslash : '/' ∉ values.eventName) :
    '/' ∉ eventSpec values ∧ eventSpec values ≠ [] := by
  rw [eventSpec_eq]
  refine ⟨fun h => ?_, by simp [eventParts, Words.lead]⟩
  rcases List.mem_append.mp h with h | h
  · exact hslash h
  · obtain ⟨w, hw, h⟩ := List.mem_flatMap.mp h
    rcases List.mem_cons.mp h with h | h
    · exact absurd h (by decide)
    · exact (eventParts_plain w hw).noSlash h

/-- The regions named in a mangled name are those of its sides. -/
theorem region_noSlash (hsf : NamesOk d sf) (hlast : cg = true → NamesOk d last)
    (h : MangledFrom d event last sf cg values) {r : Text} (hr : values.anonName = some r) :
    '/' ∉ r := by
  rw [h.region] at hr
  split at hr
  · rename_i hcg
    obtain ⟨a, ha, rfl⟩ := Option.map_eq_some_iff.mp hr
    exact (hlast (Bool.and_eq_true _ _ ▸ hcg).1).region a ha
  · split at hr
    · obtain ⟨a, ha, rfl⟩ := Option.map_eq_some_iff.mp hr
      exact hsf.region a ha
    · cases hr

/-- The components of a mangled name end in no backslash. -/
theorem dirs_getLast {sessionDir : Text} (hsession : FileName sessionDir) (hsf : NamesOk d sf)
    (hlast : cg = true → NamesOk d last) (h : MangledFrom d event last sf cg values) :
    ∀ w ∈ (Words.words '/' sessionDir ++ samplesDirs) ++
        imageMarker values.flags false values.depName values.anonName ::
          (Words.words '/' values.depName ++ depMarker ::
            imageMarker values.flags values.flags.anon values.imageName values.anonName ::
              (Words.words '/' values.imageName ++ callerWords values)),
      w.getLast? ≠ some '\\' := by
  intro w hw
  simp only [List.mem_append, List.mem_cons] at hw
  rcases hw with (hw | hw) | hw | hw | hw | hw | hw | hw
  · exact hsession.getLast hw
  · simp only [samplesDirs, List.mem_cons, List.not_mem_nil, or_false] at hw
    rcases hw with rfl | rfl <;> decide
  · rw [hw]
    exact imageMarker_getLast _ _ _ _
  · exact (depName_fileName hsf h).getLast hw
  · rw [hw]
    decide
  · rw [hw]
    exact imageMarker_getLast _ _ _ _
  · exact (sideName_fileName hsf h.image).getLast hw
  · cases cg with
    | false => simp [callerWords, h.noCaller rfl] at hw
    | true =>
      obtain ⟨name, hname, hcaller⟩ := h.caller rfl
      simp only [callerWords, hcaller, h.callgraph, if_true, List.mem_cons] at hw
      rcases hw with rfl | rfl | hw
      · decide
      · exact imageMarker_getLast _ _ _ _
      · exact (sideName_fileName (hlast rfl) hname).getLast hw

/-- The region that the flag announces has a name. -/
theorem image_region (h : MangledFrom d event last sf cg values) (hside : sf.isAnonSide = true) :
    ∃ r, values.anonName = some r := by
  rw [h.region]
  obtain ⟨hk, a, ha⟩ := isAnonSide_iff.mp hside
  split
  · rename_i hcg
    obtain ⟨-, b, hb⟩ := isAnonSide_iff.mp (Bool.and_eq_true _ _ ▸ hcg).2
    exact ⟨b.name, by rw [hb]; rfl⟩
  · exact ⟨a.name, by rw [ha]; rfl⟩

theorem caller_region (h : MangledFrom d event last sf true values)
    (hside : last.isAnonSide = true) : values.anonName = last.anon.map (·.name) := by
  rw [h.region, hside, Bool.and_self, if_pos rfl]

theorem caller_shown (hlast : cg = true → NamesOk d last) (h : MangledFrom d event last sf cg values) :
    ShownCaller (callerWords values)
      (if cg then shownText values.flags.kernel values.anonName last (values.cgImageName.getD [])
        else []) := by
  cases cg with
  | false =>
    simp only [callerWords, h.noCaller rfl, Bool.false_eq_true, if_false]
    exact ShownCaller.none
  | true =>
    obtain ⟨name, hname, hcaller⟩ := h.caller rfl
    simp only [callerWords, hcaller, h.callgraph, if_true, Option.getD_some]
    have hcgAnon : values.flags.cgAnon = last.isAnonSide := h.cgAnon
    rw [hcgAnon]
    refine ShownCaller.some (side_shown (hlast rfl) hname fun hside _ => ?_)
    obtain ⟨-, b, hb⟩ := isAnonSide_iff.mp hside
    exact ⟨b.name, by rw [caller_region h hside, hb]; rfl⟩

/-- What is read back from the name of a sample file. -/
theorem parseFilename_mangled {host : Host} {sessionDir : Text}
    (hjo : ∀ p, host.fileExists (p ++ ['.', 'j', 'o']) = false) (hsession : FileName sessionDir)
    (hsf : NamesOk d sf) (hlast : cg = true → NamesOk d last) (hslash : '/' ∉ event.name)
    (h : MangledFrom d event last sf cg values) :
    parseFilename host (Words.squeeze '/' (opMangleFilename sessionDir values)) =
      (parseEventSpec (eventSpec values)).map fun result =>
        { result with
          image := Words.lead '/' (Words.words '/' values.depName)
          libImage := shownText values.flags.kernel values.anonName sf values.imageName
          cgImage := if cg then
            shownText values.flags.kernel values.anonName last (values.cgImageName.getD []) else []
          filename := Words.squeeze '/' (opMangleFilename sessionDir values)
          jitDumpfileExists := false } := by
  obtain ⟨dirs, hmangled, hwords⟩ := opMangleFilename_words sessionDir values
    fun r hr => region_noSlash hsf hlast h hr
  obtain ⟨hspec, hne⟩ := eventSpec_chars (h.event ▸ hslash)
  have hlib : Shown (imageMarker values.flags values.flags.anon values.imageName values.anonName)
      (Words.words '/' values.imageName)
      (shownText values.flags.kernel values.anonName sf values.imageName) := by
    rw [h.anon]
    exact side_shown hsf h.image fun hside _ => image_region h hside
  rw [hmangled]
  refine parseFilename_shown hjo hspec hne ?_ hwords ?_ imageMarker_not_anon
    (depName_fileName hsf h).noDep hlib (caller_shown hlast h)
  · rw [hwords]
    exact dirs_getLast hsession hsf hlast h
  · intro w hw
    rcases List.mem_append.mp hw with hw | hw
    · exact hsession.noMarker w hw
    · simp only [samplesDirs, List.mem_cons, List.not_mem_nil, or_false] at hw
      rcases hw with rfl | rfl <;> decide

/-- What a sample file name is to be read back as. -/
def expectedParse (d : Daemon) (last sf : Sfile) (cg : Bool) (values : MangleValues)
    (filename : Text) : ParsedFilename :=
  { parsedSpec values with
    image := fileText values.depName
    libImage := sideText d sf
    cgImage := if cg then sideText d last else []
    filename := filename
    jitDumpfileExists := false }

/-- The event name has its end, names are canonical, and a call graph file does not need the names
of two regions, or of a region beside a kernel image. -/
structure ReadsBack (event : OpdEvent) (last sf : Sfile) (cg : Bool) (values : MangleValues) :
    Prop where
  eventName : event.name ≠ [] ∧ event.name.getLast? ≠ some '\\'
  app : Canonical values.depName
  image : sf.isAnonSide = false → Canonical values.imageName
  caller : cg = true → last.isAnonSide = false →
    ∀ name, values.cgImageName = some name → Canonical name
  regions : cg = true → ∀ b, last.kernel = none → last.anon = some b →
    sf.kernel = none ∧ ∀ a, sf.anon = some a → a.name = b.name

/-- The sides of a call graph file, and of any other file, are read back as they should be. -/
theorem sides_eq_iff (hsf : NamesOk d sf) (hlast : cg = true → NamesOk d last)
    (h : MangledFrom d event last sf cg values) :
    (shownText values.flags.kernel values.anonName sf values.imageName = sideText d sf ∧
      (if cg then shownText values.flags.kernel values.anonName last (values.cgImageName.getD [])
        else []) = if cg then sideText d last else []) ↔
    (sf.isAnonSide = false → Canonical values.imageName) ∧
    (cg = true → last.isAnonSide = false → ∀ name, values.cgImageName = some name → Canonical name) ∧
    (cg = true → ∀ b, last.kernel = none → last.anon = some b →
      sf.kernel = none ∧ ∀ a, sf.anon = some a → a.name = b.name) := by
  rw [shownText_eq_iff hsf h.image fun hside _ => image_region h hside]
  cases cg with
  | false =>
    have hown : ∀ a, sf.kernel = none → sf.anon = some a →
        values.flags.kernel = false ∧ values.anonName = some a.name := by
      intro a hk ha
      have hside := isAnonSide_iff.mpr ⟨hk, a, ha⟩
      refine ⟨by rw [h.kernel, hk]; rfl, ?_⟩
      rw [h.region, Bool.false_and, if_neg (by decide), if_pos hside, ha]
      rfl
    constructor
    · rintro ⟨⟨himage, -⟩, -⟩
      exact ⟨himage, fun hno => (by cases hno), fun hno => (by cases hno)⟩
    · rintro ⟨himage, -, -⟩
      exact ⟨⟨himage, hown⟩, rfl⟩
  | true =>
    obtain ⟨name, hname, hcaller⟩ := h.caller rfl
    have hregion : last.isAnonSide = true → values.flags.kernel = false →
        ∃ r, values.anonName = some r := by
      intro hside _
      obtain ⟨-, b, hb⟩ := isAnonSide_iff.mp hside
      exact ⟨b.name, by rw [caller_region h hside, hb]; rfl⟩
    simp only [if_true, hcaller, Option.getD_some]
    rw [shownText_eq_iff (hlast rfl) hname hregion]
    constructor
    · rintro ⟨⟨himage, hown⟩, hcanonical, hcallerOwn⟩
      refine ⟨himage, fun _ hside _ heq => Option.some_inj.mp heq ▸ hcanonical hside,
        fun _ b hk hb => ?_⟩
      obtain ⟨hflag, hregion⟩ := hcallerOwn b hk hb
      rw [h.kernel, Option.isSome_eq_false_iff, Option.isNone_iff_eq_none] at hflag
      refine ⟨hflag, fun a ha => ?_⟩
      have hname := (hown a hflag ha).2
      rw [hregion, Option.some_inj] at hname
      exact hname.symm
    · rintro ⟨himage, hcanonical, hregions⟩
      refine ⟨⟨himage, fun a hk ha => ⟨by rw [h.kernel, hk]; rfl, ?_⟩⟩,
        fun hside => hcanonical trivial hside name rfl, fun b hk hb => ?_⟩
      · by_cases hside : last.isAnonSide = true
        · obtain ⟨hlk, b, hb⟩ := isAnonSide_iff.mp hside
          rw [caller_region h hside, hb, (hregions trivial b hlk hb).2 a ha]
          rfl
        · have hfile : last.isAnonSide = false := by simpa using hside
          rw [h.region, hfile, Bool.and_false, if_neg (by decide),
            if_pos (isAnonSide_iff.mpr ⟨hk, a, ha⟩), ha]
          rfl
      · obtain ⟨hkernel, -⟩ := hregions trivial b hk hb
        refine ⟨by rw [h.kernel, hkernel]; rfl, ?_⟩
        rw [caller_region h (isAnonSide_iff.mpr ⟨hk, b, hb⟩), hb]
        rfl

/-- The name of a sample file is read back as what it was made from exactly when two anonymous
sides agree on the name of their regions, no region is the caller of a kernel image, the names are
canonical and the event's name is not empty and does not end in a backslash. -/
theorem mangled_name_reads_back (host : Host) (d : Daemon) (sessionDir : Text) (event : OpdEvent)
    (last sf : Sfile) (cg : Bool) (values : MangleValues)
    (hjo : ∀ p, host.fileExists (p ++ ['.', 'j', 'o']) = false) (hsession : FileName sessionDir)
    (hsf : NamesOk d sf) (hlast : cg = true → NamesOk d last)
    (hevent : '.' ∉ event.name ∧ '/' ∉ event.name)
    (hvalues : mangleValues d event last sf cg = some values) :
    parseFilename host (Words.squeeze '/' (opMangleFilename sessionDir values)) =
      .ok (expectedParse d last sf cg values
        (Words.squeeze '/' (opMangleFilename sessionDir values))) ↔
    ReadsBack event last sf cg values := by
  have h := mangleValues_from hvalues
  have hdot : '.' ∉ values.eventName := h.event ▸ hevent.1
  rw [parseFilename_mangled hjo hsession hsf hlast hevent.2 h]
  by_cases hname : values.eventName ≠ [] ∧ values.eventName.getLast? ≠ some '\\'
  · rw [parseEventSpec_eventSpec hdot hname.1 hname.2]
    have hsides := sides_eq_iff hsf hlast h
    simp only [Except.map, Except.ok.injEq, expectedParse, ParsedFilename.mk.injEq, and_true]
    constructor
    · rintro ⟨happ, hlib, hcg⟩
      obtain ⟨himage, hcaller, hregions⟩ := hsides.mp ⟨hlib, hcg⟩
      exact ⟨h.event ▸ hname, happ, himage, hcaller, hregions⟩
    · intro hback
      obtain ⟨hlib, hcg⟩ := hsides.mpr ⟨hback.image, hback.caller, hback.regions⟩
      exact ⟨hback.app, hlib, hcg⟩
  · have hbad : values.eventName = [] ∨ values.eventName.getLast? = some '\\' := by
      by_contra hno
      rw [not_or] at hno
      exact hname hno
    rw [parseEventSpec_bad hdot hbad]
    refine ⟨fun heq => (by cases heq), fun hback => ?_⟩
    exact absurd (h.event ▸ hback.eventName) hname

/-- `"/app"` and `"/lib"`. -/
def appName : Text := ['/', 'a', 'p', 'p']

def libName : Text := ['/', 'l', 'i', 'b']

/-- A daemon that knows two cookies. -/
def exampleDaemon : Daemon where
  separateKernel := false
  separateLib := true
  separateThread := true
  separateCpu := false
  findCookie := fun cookie => if cookie = 1 then some appName else if cookie = 2 then some libName else none

def exampleHost : Host := ⟨fun _ => false, id⟩

def exampleEvent : OpdEvent := ⟨['C', 'P', 'U'], 100000, 1⟩

/-- `"/var"`. -/
def exampleDir : Text := ['/', 'v', 'a', 'r']

def librarySide : Sfile := ⟨2, 1, 8, 7, 0, none, none⟩

def heapSide : Sfile := ⟨0, 1, 8, 7, 0, none, some ⟨0x1000, 0x2000, 7, ['[', 'h', 'e', 'a', 'p', ']']⟩⟩

def stackSide : Sfile := ⟨0, 1, 8, 7, 0, none, some ⟨0x9000, 0xa000, 7, ['[', 's', 't', 'a', 'c', 'k', ']']⟩⟩

theorem namesOk_of_regions {sf : Sfile} (hk : sf.kernel = none)
    (hregion : ∀ a, sf.anon = some a → '/' ∉ a.name) : NamesOk exampleDaemon sf := by
  refine ⟨fun cookie name hname => ?_, fun name hname => ?_, hregion⟩
  · simp only [exampleDaemon] at hname
    split at hname
    · cases hname
      exact ⟨by decide, by decide⟩
    · split at hname
      · cases hname
        exact ⟨by decide, by decide⟩
      · cases hname
  · rw [hk] at hname
    cases hname

/-- A call from a region into a library is read back. -/
theorem mangled_name_reads_back_library : ∃ values,
    mangleValues exampleDaemon exampleEvent heapSide librarySide true = some values ∧
    parseFilename exampleHost (Words.squeeze '/' (opMangleFilename exampleDir values)) =
      .ok (expectedParse exampleDaemon heapSide librarySide true values
        (Words.squeeze '/' (opMangleFilename exampleDir values))) := by
  refine ⟨_, rfl, (mangled_name_reads_back exampleHost exampleDaemon exampleDir exampleEvent heapSide
    librarySide true _ (fun _ => rfl) ⟨by decide, by decide⟩ ?_ (fun _ => ?_) (by decide) rfl).mpr
    ⟨by decide, ?_, fun _ => ?_, fun _ hno => ?_, fun _ b _ hb => ⟨rfl, fun a ha => ?_⟩⟩⟩
  · refine namesOk_of_regions rfl fun a ha => ?_
    cases ha
  · refine namesOk_of_regions rfl fun a ha => ?_
    cases ha
    decide
  · show Words.lead '/' (Words.words '/' appName) = fileText appName
    decide
  · show Words.lead '/' (Words.words '/' libName) = fileText libName
    decide
  · cases hno
  · cases ha

/-- A call from one region into another: the callee is read back under the caller's region. -/
theorem two_regions_not_read_back : ∃ values,
    (FileName exampleDir ∧ NamesOk exampleDaemon heapSide ∧ NamesOk exampleDaemon stackSide) ∧
    mangleValues exampleDaemon exampleEvent stackSide heapSide true = some values ∧
    parseFilename exampleHost (Words.squeeze '/' (opMangleFilename exampleDir values)) ≠
      .ok (expectedParse exampleDaemon stackSide heapSide true values
        (Words.squeeze '/' (opMangleFilename exampleDir values))) := by
  refine ⟨_, ⟨⟨by decide, by decide⟩, ?_, ?_⟩, rfl, fun heq => ?_⟩
  · refine namesOk_of_regions rfl fun a ha => ?_
    cases ha
    decide
  · refine namesOk_of_regions rfl fun a ha => ?_
    cases ha
    decide
  · have hlib := congrArg (fun r => r.toOption.map ParsedFilename.libImage) heq
    exact absurd hlib (by decide)

end Oprofile.SampleNames
