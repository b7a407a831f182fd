import Mathlib.Data.List.Nodup
import Mathlib.Data.List.TakeWhile
import Oprofile.Libpp.SpecExclusion

/-! What the tagged arguments of a specification are taken for, and when they are rejected. -/
namespace Oprofile.Libpp

open SampleNames

/-- The known tags among the arguments, each with its value. -/
def tagged (args : List Text) : List (Tag × Text) := args.filterMap getHandler

def RepeatedTag (args : List Text) : Prop := ¬((tagged args).map Prod.fst).Nodup

/-- The value of the tag can be converted. -/
def ValueOk : Tag → Text → Prop
  | .event, v => ∃ l, CommaList.set castWord v = .ok l
  | .count, v | .tid, v | .tgid, v | .cpu, v => ∃ l, CommaList.set castInt v = .ok l
  | .unitMask, v => ∃ l, CommaList.set castUnsigned v = .ok l
  | _, _ => True

def InvalidValue (args : List Text) : Prop := ∃ a ∈ tagged args, ¬ValueOk a.1 a.2

/-- Two specifications have the same constraint for a tag. -/
def Tag.Same (a b : ProfileSpec) : Tag → Prop
  | .archive => a.archivePath = b.archivePath
  | .session => a.session = b.session
  | .sessionExclude => a.sessionExclude = b.sessionExclude
  | .image => a.image = b.image
  | .imageExclude => a.imageExclude = b.imageExclude
  | .libImage => a.libImage = b.libImage
  | .event => a.event = b.event
  | .count => a.count = b.count
  | .unitMask => a.unitmask = b.unitmask
  | .tid => a.tid = b.tid
  | .tgid => a.tgid = b.tgid
  | .cpu => a.cpu = b.cpu

variable {fs : SpecFiles} {args : List Text} {t : Tag} {v : Text} {a b s s' : ProfileSpec}

/-- The constraint of the tag is the one that its value alone makes. -/
def Holds (fs : SpecFiles) (spec : ProfileSpec) (t : Tag) (v : Text) : Prop :=
  ∃ s, ProfileSpec.init.action fs v t = .ok s ∧ t.Same spec s.defaultSession

/-- No constraint was given for the tag. -/
def Unset (spec : ProfileSpec) (t : Tag) : Prop := t.Same spec ProfileSpec.init.defaultSession

theorem Tag.Same.refl (t : Tag) (a : ProfileSpec) : t.Same a a := by cases t <;> rfl

theorem Tag.Same.trans {c : ProfileSpec} (h : t.Same a b) (h' : t.Same b c) : t.Same a c := by
  cases t <;> exact Eq.trans h h'

theorem action_ok_iff : (∃ s', s.action fs v t = .ok s') ↔ ValueOk t v := by
  cases t <;> simp only [ProfileSpec.action, ValueOk, Results.map_isOk, Except.ok.injEq, exists_eq', iff_self]

/-- The action of a tag sets the tag's own field, and as it would in a fresh specification. -/
theorem action_self (hextra : s.extraFoundImages = .unpopulated) (h : s.action fs v t = .ok s') :
    ∃ s₀, ProfileSpec.init.action fs v t = .ok s₀ ∧ t.Same s' s₀ := by
  cases t <;> simp only [ProfileSpec.action] at h ⊢
  case image | imageExclude | libImage =>
    cases h
    refine ⟨_, rfl, ?_⟩
    simp only [Tag.Same, hextra]
    rfl
  case archive | session | sessionExclude =>
    cases h
    exact ⟨_, rfl, rfl⟩
  all_goals
    obtain ⟨l, hl, rfl⟩ := Results.map_ok h
    rw [hl]
    exact ⟨_, rfl, rfl⟩

/-- What an action changes is the field of its tag. -/
theorem action_other {u : Tag} (hne : u ≠ t) (h : s.action fs v t = .ok s') : u.Same s' s := by
  cases t <;> simp only [ProfileSpec.action] at h
  case archive | session | sessionExclude | image | imageExclude | libImage =>
    cases h
    cases u <;> first | rfl | exact absurd rfl hne
  all_goals
    obtain ⟨l, hl, rfl⟩ := Results.map_ok h
    cases u <;> first | rfl | exact absurd rfl hne

theorem action_extra (h : s.action fs v t = .ok s') : s'.extraFoundImages = s.extraFoundImages := by
  cases t <;> simp only [ProfileSpec.action] at h
  case archive | session | sessionExclude | image | imageExclude | libImage =>
    cases h
    rfl
  all_goals
    obtain ⟨l, hl, rfl⟩ := Results.map_ok h
    rfl

theorem same_defaultSession (h : t.Same a b) : t.Same a.defaultSession b.defaultSession := by
  cases t <;> simp only [Tag.Same, ProfileSpec.defaultSession] at h ⊢
  case session =>
    rw [h]
    split_ifs
    · rfl
    · exact h
  all_goals split_ifs <;> exact h

/-- Images given without a tag leave the tags' constraints alone. -/
theorem same_setImageOrLibName (temp : List Text) (s : ProfileSpec) :
    t.Same (temp.foldl (·.setImageOrLibName fs ·) s) s := by
  induction temp generalizing s with
  | nil => exact Tag.Same.refl t s
  | cons im temp ih =>
    have hone : t.Same (s.setImageOrLibName fs im) s := by cases t <;> rfl
    exact (ih _).trans hone

theorem parseTable_name : ∀ e ∈ parseTable, ∀ e' ∈ parseTable, e.2 = e'.2 → e.1 = e'.1 := by
  decide

/-- The tag and the value are all of an argument. -/
theorem getHandler_inj {x y : Text} {p : Tag × Text} (hx : getHandler x = some p) (hy : getHandler y = some p) : x = y := by
  have hparts : ∀ {z : Text}, getHandler z = some p →
      ∃ k, (k, p.1) ∈ parseTable ∧ z = k ++ ':' :: p.2 := by
    intro z hz
    rw [getHandler] at hz
    split_ifs at hz with hcolon
    obtain ⟨u, hfind, rfl⟩ := Option.map_eq_some_iff.mp hz
    refine ⟨_, KeyMap.mem_of_find hfind, ?_⟩
    have hdrop : z.dropWhile (· ≠ ':') ≠ [] := by
      intro hnil
      have hall := List.dropWhile_eq_nil_iff.mp hnil ':' hcolon
      simp at hall
    have hhead : (z.dropWhile (· ≠ ':')).head hdrop = ':' := by
      have hnot := List.head_dropWhile_not (· ≠ ':') hdrop
      simpa using hnot
    conv_lhs => rw [← List.takeWhile_append_dropWhile (p := (· ≠ ':')) (l := z)]
    rw [← List.cons_head_tail hdrop, hhead]
    rfl
  obtain ⟨k, hk, rfl⟩ := hparts hx
  obtain ⟨k', hk', rfl⟩ := hparts hy
  have hname : k = k' := parseTable_name _ hk _ hk' rfl
  rw [hname]

theorem getHandler_of_valid {it : Text} (h : isValidTag it = true) : ∃ p, getHandler it = some p :=
  Option.isSome_iff_exists.mp h

theorem tagged_cons_some {it : Text} {p : Tag × Text} (h : getHandler it = some p) (args : List Text) :
    tagged (it :: args) = p :: tagged args := List.filterMap_cons_some h

theorem tagged_cons_none {it : Text} (h : isValidTag it = false) (args : List Text) :
    tagged (it :: args) = tagged args := by
  apply List.filterMap_cons_none
  exact Option.isSome_eq_false_iff.mp h |> Option.isNone_iff_eq_none.mp

theorem mem_tagged_of_mem {it : Text} {p : Tag × Text} (h : getHandler it = some p) : p ∈ tagged args ↔ it ∈ args := by
  rw [tagged, List.mem_filterMap]
  constructor
  · rintro ⟨y, hy, hp⟩
    rw [getHandler_inj h hp]
    exact hy
  · intro hit
    exact ⟨it, hit, h⟩

/-- The loop gets to its end just when no tagged argument comes twice and every value can be converted. -/
theorem createLoop_ok_iff (fs : SpecFiles) (args : List Text) (s : ProfileSpec) (seen temp : List Text) :
    (∃ r, createLoop fs s seen temp args = .ok r) ↔
      (∀ it ∈ args, isValidTag it = true → it ∉ seen) ∧ (tagged args).Nodup ∧ ∀ p ∈ tagged args, ValueOk p.1 p.2 := by
  induction args generalizing s seen temp with
  | nil => simp [createLoop, tagged]
  | cons it args ih =>
    cases hvalid : isValidTag it with
    | false =>
      rw [createLoop, if_neg (by simp [hvalid]), ih, tagged_cons_none hvalid, List.forall_mem_cons]
      simp [hvalid]
    | true =>
      obtain ⟨p, hp⟩ := getHandler_of_valid hvalid
      rw [createLoop, if_pos hvalid, tagged_cons_some hp, List.nodup_cons, List.forall_mem_cons, List.forall_mem_cons,
        mem_tagged_of_mem hp]
      by_cases hseen : it ∈ seen
      · simp [hseen, hvalid]
      · rw [if_neg hseen]
        have hparse : s.parse fs it = s.action fs p.2 p.1 := by rw [ProfileSpec.parse, hp]
        rw [hparse]
        constructor
        · rintro ⟨r, hr⟩
          obtain ⟨s', hs', hrest⟩ := Results.bind_ok hr
          obtain ⟨hargs, hnodup, hvalues⟩ := (ih s' (it :: seen) temp).mp ⟨r, hrest⟩
          have hit : it ∉ args := fun hmem => hargs it hmem hvalid List.mem_cons_self
          refine ⟨⟨fun _ => hseen, fun x hx hxv => ?_⟩, ⟨hit, hnodup⟩, action_ok_iff.mp ⟨s', hs'⟩, hvalues⟩
          exact fun hmem => hargs x hx hxv (List.mem_cons_of_mem _ hmem)
        · rintro ⟨⟨-, hargs⟩, ⟨hit, hnodup⟩, hvalue, hvalues⟩
          obtain ⟨s', hs'⟩ := action_ok_iff.mpr hvalue
          rw [Results.ok_bind hs', ih]
          refine ⟨fun x hx hxv => ?_, hnodup, hvalues⟩
          rintro (_ | ⟨_, hmem⟩)
          · exact hit hx
          · exact hargs x hx hxv hmem

/-- What the loop makes of arguments with different tags: each tag's field is the one its argument sets. -/
theorem createLoop_fields {seen temp temp' : List Text} (hextra : s.extraFoundImages = .unpopulated)
    (hnodup : ((tagged args).map Prod.fst).Nodup) (h : createLoop fs s seen temp args = .ok (s', temp')) :
    (∀ t, t ∉ (tagged args).map Prod.fst → t.Same s' s) ∧
      ∀ p ∈ tagged args, ∃ s₀, ProfileSpec.init.action fs p.2 p.1 = .ok s₀ ∧ p.1.Same s' s₀ := by
  induction args generalizing s seen temp with
  | nil =>
    cases h
    exact ⟨fun t _ => Tag.Same.refl t _, fun p hp => by cases hp⟩
  | cons it args ih =>
    rw [createLoop] at h
    cases hvalid : isValidTag it with
    | false =>
      rw [if_neg (by simp [hvalid])] at h
      rw [tagged_cons_none hvalid] at hnodup ⊢
      exact ih hextra hnodup h
    | true =>
      obtain ⟨p, hp⟩ := getHandler_of_valid hvalid
      rw [if_pos hvalid] at h
      rw [tagged_cons_some hp, List.map_cons] at hnodup ⊢
      obtain ⟨hfirst, hnodup⟩ := List.nodup_cons.mp hnodup
      split_ifs at h
      have hparse : s.parse fs it = s.action fs p.2 p.1 := by rw [ProfileSpec.parse, hp]
      rw [hparse] at h
      obtain ⟨s₁, hs₁, hrest⟩ := Results.bind_ok h
      obtain ⟨hothers, hset⟩ := ih ((action_extra hs₁).trans hextra) hnodup hrest
      refine ⟨fun t ht => ?_, fun q hq => ?_⟩
      · obtain ⟨hne, ht⟩ := not_or.mp (List.mem_cons.not.mp ht)
        exact (hothers t ht).trans (action_other hne hs₁)
      · rcases List.mem_cons.mp hq with rfl | hq
        · obtain ⟨s₀, hs₀, hsame⟩ := action_self hextra hs₁
          exact ⟨s₀, hs₀, (hothers _ hfirst).trans hsame⟩
        · exact hset q hq

/-- Every image path is a directory below the archive that the arguments name. -/
def ImagePathsValid (fs : SpecFiles) (args imagePath : List Text) : Prop :=
  ∀ s temp, createLoop fs .init [] [] args = .ok (s, temp) →
    ∀ p ∈ imagePath, fs.isDirectory (s.archivePath ++ '/' :: p) = true

/-- The specification that `create` builds behind its loop. -/
def populated (fs : SpecFiles) (imagePath : List Text) (rootPath : Text) (r : ProfileSpec × List Text) : ProfileSpec :=
  r.2.foldl (·.setImageOrLibName fs ·)
    { r.1.defaultSession with extraFoundImages := ⟨imagePath, r.1.defaultSession.archivePath, rootPath⟩ }

theorem create_eq {imagePath : List Text} (hpaths : ImagePathsValid fs args imagePath) (rootPath : Text) :
    ProfileSpec.create fs args imagePath rootPath =
      (createLoop fs .init [] [] args).map (populated fs imagePath rootPath) := by
  rw [ProfileSpec.create]
  cases hloop : createLoop fs .init [] [] args with
  | error e => rfl
  | ok r =>
    obtain ⟨s, temp⟩ := r
    have harchive : s.defaultSession.archivePath = s.archivePath := by
      rw [ProfileSpec.defaultSession]
      split_ifs <;> rfl
    have hall : imagePath.all (fun p => fs.isDirectory (s.defaultSession.archivePath ++ '/' :: p)) = true := by
      rw [harchive]
      exact List.all_eq_true.mpr (hpaths s temp hloop)
    show (if _ then _ else _) = _
    rw [if_pos hall]
    rfl

theorem same_populated (imagePath : List Text) (rootPath : Text) (r : ProfileSpec × List Text) :
    t.Same (populated fs imagePath rootPath r) r.1.defaultSession := by
  refine (same_setImageOrLibName r.2 _).trans ?_
  cases t <;> rfl

/-- What repeated tags are to lead to: they and nothing else are rejected, and otherwise each tag's constraint is
the one value given for it, and tags without a value have none. -/
def RejectsRepeatedTags (fs : SpecFiles) (args imagePath : List Text) (rootPath : Text) : Prop :=
  ((∃ e, ProfileSpec.create fs args imagePath rootPath = .error e) ↔ RepeatedTag args) ∧
    (¬RepeatedTag args → ∀ spec, ProfileSpec.create fs args imagePath rootPath = .ok spec →
      ∀ t, (∀ v, (t, v) ∈ tagged args → Holds fs spec t v) ∧ ((∀ v, (t, v) ∉ tagged args) → Unset spec t))

theorem create_throws_iff {imagePath : List Text} (hpaths : ImagePathsValid fs args imagePath) (rootPath : Text) :
    (∃ e, ProfileSpec.create fs args imagePath rootPath = .error e) ↔ ¬(tagged args).Nodup ∨ InvalidValue args := by
  have hok := createLoop_ok_iff fs args .init [] []
  have hthrows : (∃ e, ProfileSpec.create fs args imagePath rootPath = .error e) ↔
      ¬∃ r, createLoop fs .init [] [] args = .ok r := by
    rw [create_eq hpaths]
    cases createLoop fs .init [] [] args with
    | error e => simp [Except.map]
    | ok r => simp [Except.map]
  rw [hthrows, hok, InvalidValue]
  constructor
  · intro hnot
    by_cases hnodup : (tagged args).Nodup
    · by_contra hvalues
      simp only [hnodup, not_true, false_or, not_exists, not_and, not_not] at hvalues
      exact hnot ⟨fun _ _ _ => List.not_mem_nil, hnodup, hvalues⟩
    · exact Or.inl hnodup
  · rintro (hsame | ⟨a, ha, hbad⟩) ⟨-, hnodup, hvalues⟩
    · exact hsame hnodup
    · exact hbad (hvalues a ha)

/-- Without a repeated tag, what is built has the constraint given for each tag. -/
theorem create_fields {imagePath : List Text} (hpaths : ImagePathsValid fs args imagePath) (rootPath : Text)
    (hnodup : ((tagged args).map Prod.fst).Nodup) {spec : ProfileSpec}
    (h : ProfileSpec.create fs args imagePath rootPath = .ok spec) (t : Tag) :
    (∀ v, (t, v) ∈ tagged args → Holds fs spec t v) ∧ ((∀ v, (t, v) ∉ tagged args) → Unset spec t) := by
  rw [create_eq hpaths] at h
  obtain ⟨⟨s, temp⟩, hloop, rfl⟩ := Results.map_ok h
  obtain ⟨hothers, hset⟩ := createLoop_fields rfl hnodup hloop
  refine ⟨fun v hv => ?_, fun hnone => ?_⟩
  · obtain ⟨s₀, hs₀, hsame⟩ := hset _ hv
    exact ⟨s₀, hs₀, (same_populated imagePath rootPath _).trans (same_defaultSession hsame)⟩
  · have ht : t ∉ (tagged args).map Prod.fst := by
      rintro hmem
      obtain ⟨⟨u, v⟩, hv, rfl⟩ := List.mem_map.mp hmem
      exact hnone v hv
    exact (same_populated imagePath rootPath _).trans (same_defaultSession (hothers t ht))

theorem rejectsRepeatedTags_iff (fs : SpecFiles) (args imagePath : List Text) (rootPath : Text)
    (hpaths : ImagePathsValid fs args imagePath) :
    RejectsRepeatedTags fs args imagePath rootPath ↔
      (RepeatedTag args → ¬(tagged args).Nodup ∨ InvalidValue args) ∧ (InvalidValue args → RepeatedTag args) := by
  rw [RejectsRepeatedTags, create_throws_iff hpaths rootPath]
  constructor
  · rintro ⟨hthrows, -⟩
    exact ⟨hthrows.mpr, fun hinvalid => hthrows.mp (Or.inr hinvalid)⟩
  · rintro ⟨hrepeated, hinvalid⟩
    refine ⟨⟨?_, hrepeated⟩, ?_⟩
    · rintro (hsame | hbad)
      · exact fun hnodup => hsame (List.Nodup.of_map _ hnodup)
      · exact hinvalid hbad
    · intro hnot spec hspec t
      exact create_fields hpaths rootPath (not_not.mp hnot) hspec t

/-- With an image path, a tag that is given twice is rejected, and one that is given once holds. -/
theorem rejectsRepeatedTags_event :
    (∃ e, ProfileSpec.create ProfileSpec.plainFiles ["event:A".toList, "/bin/bash".toList, "event:A".toList]
      ["lib".toList] [] = .error e) ∧
    ∀ spec, ProfileSpec.create ProfileSpec.plainFiles ["event:A".toList, "/bin/bash".toList] ["lib".toList] [] = .ok spec →
      Holds ProfileSpec.plainFiles spec .event "A".toList := by
  have hvalid : ∀ a ∈ [(Tag.event, "A".toList)], ValueOk a.1 a.2 := by
    intro a ha
    rw [List.mem_singleton.mp ha]
    exact ⟨_, rfl⟩
  have hpaths : ∀ args, ImagePathsValid ProfileSpec.plainFiles args ["lib".toList] := fun _ _ _ _ _ _ => rfl
  constructor
  · have htagged : tagged ["event:A".toList, "/bin/bash".toList, "event:A".toList] =
        [(.event, "A".toList), (.event, "A".toList)] := by decide
    have hrejects : RejectsRepeatedTags ProfileSpec.plainFiles ["event:A".toList, "/bin/bash".toList, "event:A".toList]
        ["lib".toList] [] := by
      refine (rejectsRepeatedTags_iff _ _ _ _ (hpaths _)).mpr ⟨fun _ => Or.inl (by rw [htagged]; decide), ?_⟩
      rintro ⟨a, ha, hbad⟩
      rw [htagged] at ha
      refine absurd (hvalid a ?_) hbad
      rcases List.mem_cons.mp ha with ha | ha
      · exact List.mem_singleton.mpr ha
      · exact ha
    refine hrejects.1.mpr ?_
    rw [RepeatedTag, htagged]
    decide
  · have htagged : tagged ["event:A".toList, "/bin/bash".toList] = [(.event, "A".toList)] := by decide
    have hnot : ¬RepeatedTag ["event:A".toList, "/bin/bash".toList] := by
      rw [RepeatedTag, htagged]
      decide
    intro spec hspec
    refine (((rejectsRepeatedTags_iff ProfileSpec.plainFiles _ ["lib".toList] [] (hpaths _)).mpr
      ⟨fun hrepeated => absurd hrepeated hnot, ?_⟩).2 hnot spec hspec .event).1 _ ?_
    · rintro ⟨a, ha, hbad⟩
      rw [htagged] at ha
      exact absurd (hvalid a ha) hbad
    · rw [htagged]
      exact List.mem_singleton_self _

/-- A tag given again with another value replaces the first. -/
theorem create_event_twice :
    ImagePathsValid ProfileSpec.plainFiles ["event:A".toList, "event:B".toList] [] ∧
      ¬RejectsRepeatedTags ProfileSpec.plainFiles ["event:A".toList, "event:B".toList] [] [] := by
  refine ⟨?_, fun hrejects => ?_⟩
  · intro _ _ _ p hp
    cases hp
  have hrepeated : RepeatedTag ["event:A".toList, "event:B".toList] := by
    rw [RepeatedTag]
    decide
  obtain ⟨e, he⟩ := hrejects.1.mpr hrepeated
  cases he

end Oprofile.Libpp
