import Oprofile.Libop.EventsText

/-! What the tags `um:` stand for: a unit mask of the files, or several merged, whatever else the events files name. -/
namespace Oprofile.Libop.EventsFile

open SampleNames (Text)
open UnitMasks (UnitMaskType maxUnitMask)
open UnitMaskFiles UnitMaskFiles.UmState

/-! ### The unit mask of a tag -/

/-- The unit masks of the list, in their order. -/
def umTable (s : UmState) : List OpUnitMask := s.umList.map s.ums

def named (table : List OpUnitMask) (value : Text) : Option OpUnitMask := table.find? fun um => um.name = some value

def marked (um : OpUnitMask) : OpUnitMask := { um with used := true }

/-- Unit masks that can be merged: all of one type, which takes several values, and with few enough entries. -/
def Mergeable (type : UnitMaskType) (ums : List OpUnitMask) : Prop :=
  (type = .bitmask ∨ type = .exclusive) ∧ (∀ um ∈ ums, um.unitTypeMask = type) ∧
    (ums.map OpUnitMask.num).sum ≤ maxUnitMask

instance (type : UnitMaskType) (ums : List OpUnitMask) : Decidable (Mergeable type ums) :=
  inferInstanceAs (Decidable (_ ∧ _))

/-- Several unit masks in one. -/
def mergedUm (value : Text) (type : UnitMaskType) (ums : List OpUnitMask) : OpUnitMask where
  name := some value
  num := (ums.map OpUnitMask.num).sum
  unitTypeMask := type
  defaultMask := ums.foldl (fun mask um => mask ||| um.defaultMask) 0
  defaultMaskName := none
  um := ums.flatMap fun um => um.um.take um.num
  used := true

/-- The unit mask of a tag: the first of its name or, where the value has commas, the unit masks between them in one. -/
def unitOf (table : List OpUnitMask) (value : Text) : Option OpUnitMask :=
  match named table value with
  | some um => some (marked um)
  | none =>
    if ',' ∈ value then
      match (splitCommas value).mapM (named table) with
      | some (um :: ums) =>
        if Mergeable um.unitTypeMask (um :: ums) then some (mergedUm value um.unitTypeMask (um :: ums)) else none
      | _ => none
    else none

variable {s₀ s s' start : UmState} {addr new : Nat} {value part : Text} {done ums : List OpUnitMask} {um : OpUnitMask}

/-! ### What stays -/

/-- Unit masks are only added, and those there only marked as used. -/
structure Frame (s s' : UmState) : Prop where
  front : s.umList <+: s'.umList
  kept : ∀ a ∈ s.umList, marked (s'.ums a) = marked (s.ums a)

theorem Frame.refl (s : UmState) : Frame s s := ⟨List.prefix_rfl, fun _ _ => rfl⟩

theorem Frame.trans {s₁ s₂ s₃ : UmState} (h : Frame s₁ s₂) (h' : Frame s₂ s₃) : Frame s₁ s₃ :=
  ⟨h.front.trans h'.front, fun a ha => (h'.kept a (h.front.mem ha)).trans (h.kept a ha)⟩

theorem Frame.mem (h : Frame s s') (ha : addr ∈ s.umList) : addr ∈ s'.umList := h.front.mem ha

theorem marked_set_marked (s : UmState) (addr a : Nat) :
    marked ((s.set addr (marked (s.ums addr))).ums a) = marked (s.ums a) := by
  by_cases h : a = addr
  · rw [h, set_self]
    rfl
  · rw [set_other _ h]

/-- The mark is the only difference. -/
theorem marked_eq {um um' : OpUnitMask} (h : marked um = marked um') :
    um.name = um'.name ∧ um.num = um'.num ∧ um.unitTypeMask = um'.unitTypeMask ∧ um.defaultMask = um'.defaultMask ∧
      um.um = um'.um := by
  simp only [marked, OpUnitMask.mk.injEq] at h
  exact ⟨h.1, h.2.1, h.2.2.1, h.2.2.2.1, h.2.2.2.2.2.1⟩

theorem name_set_marked (s : UmState) (addr a : Nat) :
    ((s.set addr (marked (s.ums addr))).ums a).name = (s.ums a).name :=
  (marked_eq (marked_set_marked s addr a)).1

theorem frame_marked (s : UmState) (addr : Nat) : Frame s (s.set addr (marked (s.ums addr))) :=
  ⟨List.prefix_rfl, fun a _ => marked_set_marked s addr a⟩

/-- A unit mask that is not on the list may be changed. -/
theorem Frame.set_new (h : Frame s s') (hnew : new ∉ s.umList) (um : OpUnitMask) : Frame s (s'.set new um) := by
  refine ⟨h.front, fun a ha => ?_⟩
  have hne : a ≠ new := by
    rintro rfl
    exact hnew ha
  rw [set_other um hne]
  exact h.kept a ha

theorem Bounded.frame_newUnitMask (h : Bounded s) : Frame s s.newUnitMask := by
  refine ⟨List.prefix_append _ _, fun a ha => ?_⟩
  have hne : a ≠ s.next := (h.allocated a ha).ne
  simp [UmState.newUnitMask, hne]

/-- Every unit mask that the events files have added is what its name stands for, but for one that is being merged. -/
structure Extends (s₀ s : UmState) (new : Option Nat) : Prop where
  bounded : Bounded s
  frame : Frame s₀ s
  comma : ∀ a ∈ s.umList, a ∉ s₀.umList → ∃ value, (s.ums a).name = some value ∧ ',' ∈ value
  merged : ∀ a ∈ s.umList, a ∉ s₀.umList → some a ≠ new → ∀ value, (s.ums a).name = some value →
    unitOf (umTable s₀) value = some (marked (s.ums a))

theorem Extends.refl (h : Bounded s) : Extends s s none :=
  ⟨h, .refl s, fun _ ha hout => (hout ha).elim, fun _ ha hout => (hout ha).elim⟩

theorem Extends.marked {new : Option Nat} (h : Extends s₀ s new) (ha : addr ∈ s.umList) :
    Extends s₀ (s.set addr (marked (s.ums addr))) new := by
  refine ⟨h.bounded.used ha, h.frame.trans (frame_marked s addr), fun a hin hout => ?_,
    fun a hin hout hne value hname => ?_⟩
  · rw [name_set_marked]
    exact h.comma a hin hout
  · rw [name_set_marked] at hname
    rw [marked_set_marked]
    exact h.merged a hin hout hne value hname

theorem find_name_congr {f g : Nat → Option Text} {addrs : List Nat} (h : ∀ a ∈ addrs, f a = g a) (name : Option Text) :
    addrs.find? (fun a => f a = name) = addrs.find? fun a => g a = name := by
  induction addrs with
  | nil => rfl
  | cons a addrs ih =>
    rw [List.find?_cons, List.find?_cons, h a List.mem_cons_self, ih fun b hb => h b (List.mem_cons_of_mem _ hb)]

/-- The first unit mask of a name among those of the files is found. -/
theorem Extends.find_front {new : Option Nat} (h : Extends s₀ s new) (value : Text) :
    s₀.umList.find? (fun a => (s.ums a).name = some value) = s₀.umList.find? fun a => (s₀.ums a).name = some value :=
  find_name_congr (fun a ha => (marked_eq (h.frame.kept a ha)).1) (some value)

theorem named_umTable (s : UmState) (value : Text) :
    named (umTable s) value = (s.umList.find? fun a => (s.ums a).name = some value).map s.ums := by
  rw [named, umTable, List.find?_map]
  rfl

/-- Looking for a name finds what the files have under it, or what has been merged under it. -/
theorem Extends.tryFindUm {new : Option Nat} (h : Extends s₀ s new) (value : Text) :
    (∃ a um, s.tryFindUm value = some (a, s.set a (EventsFile.marked (s.ums a))) ∧ a ∈ s₀.umList ∧
        named (umTable s₀) value = some um ∧ EventsFile.marked (s.ums a) = EventsFile.marked um) ∨
      named (umTable s₀) value = none ∧
        ((∃ a, s.tryFindUm value = some (a, s.set a (EventsFile.marked (s.ums a))) ∧ a ∈ s.umList ∧ a ∉ s₀.umList ∧
            (s.ums a).name = some value) ∨
          s.tryFindUm value = none) := by
  obtain ⟨added, hadded⟩ := h.frame.front
  have hfront := h.find_front value
  rw [named_umTable]
  have hsplit : s.umList.find? (fun a => (s.ums a).name = some value) =
      (s₀.umList.find? fun a => (s₀.ums a).name = some value).or
        (added.find? fun a => (s.ums a).name = some value) := by
    rw [← hadded, List.find?_append, hfront]
  unfold UmState.tryFindUm
  rw [hsplit]
  cases hfound : s₀.umList.find? fun a => (s₀.ums a).name = some value with
  | some a =>
    have ha : a ∈ s₀.umList := List.mem_of_find?_eq_some hfound
    exact .inl ⟨a, s₀.ums a, rfl, ha, rfl, h.frame.kept a ha⟩
  | none =>
    refine .inr ⟨rfl, ?_⟩
    rw [Option.none_or]
    cases hlater : added.find? fun a => (s.ums a).name = some value with
    | none => exact .inr rfl
    | some a =>
      have hname : (s.ums a).name = some value := by simpa using List.find?_some hlater
      have ha : a ∈ s.umList := by
        rw [← hadded]
        exact List.mem_append_right _ (List.mem_of_find?_eq_some hlater)
      refine .inl ⟨a, rfl, ha, fun hin => ?_, hname⟩
      have hnone := List.find?_eq_none.mp hfound a hin
      rw [← (marked_eq (h.frame.kept a hin)).1] at hnone
      exact hnone (decide_eq_true hname)

/-! ### Merging -/

/-- A unit mask that is being merged, with the parts that are done; the state at the start had no such unit mask. -/
structure MergeAt (s₀ start s : UmState) (new : Nat) (value : Text) (done : List OpUnitMask) : Prop where
  table : Extends s₀ s (some new)
  frame : Frame start s
  base : Frame s₀ start
  mem : new ∈ s.umList
  fresh : new ∉ start.umList
  comma : ',' ∈ value
  eq : s.ums new = mergedUm value .mandatory done

theorem MergeAt.out (h : MergeAt s₀ start s new value done) : new ∉ s₀.umList := fun hin => h.fresh (h.base.mem hin)

theorem MergeAt.marked (h : MergeAt s₀ start s new value done) (ha : addr ∈ s₀.umList) :
    MergeAt s₀ start (s.set addr (marked (s.ums addr))) new value done := by
  have hne : new ≠ addr := by
    rintro rfl
    exact h.out ha
  exact ⟨h.table.marked (h.table.frame.mem ha), h.frame.trans (frame_marked s addr), h.base, h.mem, h.fresh,
    h.comma, (set_other _ hne).trans h.eq⟩

/-- The unit mask grows by some parts. -/
theorem MergeAt.update (h : MergeAt s₀ start s new value done)
    (hnum : (mergedUm value .mandatory ums).num = (mergedUm value .mandatory ums).um.length)
    (hle : (mergedUm value .mandatory ums).num ≤ maxUnitMask) :
    MergeAt s₀ start (s.set new (mergedUm value .mandatory ums)) new value ums := by
  refine ⟨⟨h.table.bounded.set hnum hle, h.table.frame.set_new h.out _, fun a ha hout => ?_,
    fun a ha hout hne v hname => ?_⟩, h.frame.set_new h.fresh _, h.base, h.mem, h.fresh, h.comma, set_self ..⟩
  · by_cases heq : a = new
    · rw [heq, set_self]
      exact ⟨value, rfl, h.comma⟩
    · rw [set_other _ heq]
      exact h.table.comma a ha hout
  · have hother : a ≠ new := fun heq => hne (congrArg some heq)
    rw [set_other _ hother] at hname ⊢
    exact h.table.merged a ha hout hne v hname

theorem mergedUm_append (value : Text) (type : UnitMaskType) (done : List OpUnitMask) (um : OpUnitMask) :
    mergedUm value type (done ++ [um]) =
      { mergedUm value type done with
        num := (mergedUm value type done).num + um.num
        defaultMask := (mergedUm value type done).defaultMask ||| um.defaultMask
        um := (mergedUm value type done).um ++ um.um.take um.num } := by
  simp [mergedUm]

/-- The entries of a unit mask of the files are those it counts. -/
theorem MergeAt.length_take (h : MergeAt s₀ start s new value done) (ha : addr ∈ s₀.umList)
    (hum : EventsFile.marked (s.ums addr) = EventsFile.marked um) : (um.um.take um.num).length = um.num := by
  obtain ⟨-, hnum, -, -, hentries⟩ := marked_eq hum
  rw [List.length_take, ← hnum, ← hentries, ← h.table.bounded.num_eq addr (h.table.frame.mem ha), Nat.min_self]

/-- A unit mask found, and the copy of its entries into the one that is being merged. -/
theorem MergeAt.mergeOne_eq (h : MergeAt s₀ start s new value done) (known : Option UnitMaskType)
    (hfind : s.tryFindUm part = some (addr, s.set addr (EventsFile.marked (s.ums addr)))) (ha : addr ∈ s₀.umList)
    (hum : EventsFile.marked (s.ums addr) = EventsFile.marked um) :
    s.mergeOne new part known (done.map OpUnitMask.num).sum =
      if um.unitTypeMask ≠ known.getD um.unitTypeMask then
        .error (.exit "combined unit mask must be all the same types")
      else if known.getD um.unitTypeMask ≠ .bitmask ∧ known.getD um.unitTypeMask ≠ .exclusive then
        .error (.exit "combined unit mask must be all bitmasks or exclusive")
      else if maxUnitMask < ((done ++ [um]).map OpUnitMask.num).sum then
        .error (.exit "too many members in combined unit mask")
      else .ok (known.getD um.unitTypeMask, ((done ++ [um]).map OpUnitMask.num).sum,
        (s.set addr (EventsFile.marked (s.ums addr))).set new (mergedUm value .mandatory (done ++ [um]))) := by
  have h₁ := h.marked ha
  obtain ⟨-, hnum, htype, hdefault, hentries⟩ :=
    marked_eq ((congrArg EventsFile.marked (set_self s addr (EventsFile.marked (s.ums addr)))).trans hum)
  have hnew := h₁.table.bounded.num_eq new h₁.mem
  have hfound : s.findUm part = .ok (addr, s.set addr (EventsFile.marked (s.ums addr))) := by rw [findUm, hfind]
  generalize s.set addr (EventsFile.marked (s.ums addr)) = s₁ at *
  have hdone : (s₁.ums new).num = (done.map OpUnitMask.num).sum := by rw [h₁.eq, mergedUm]
  have hsum : ((done ++ [um]).map OpUnitMask.num).sum = (done.map OpUnitMask.num).sum + um.num := by simp
  have hlen : (um.um.take um.num).length = um.num := h.length_take ha hum
  unfold mergeOne
  rw [hfound, Results.ok_then]
  dsimp only
  rw [htype, hnum, hdefault, hentries, set_self, hdone, hsum]
  split_ifs with hsame hkind hroom
  · rfl
  · rfl
  · rfl
  · have hcopy := copyEntries_spec new (um.um.take um.num) (done.map OpUnitMask.num).sum
      (s₁.set new { s₁.ums new with
        defaultMask := (s₁.ums new).defaultMask ||| um.defaultMask
        num := (done.map OpUnitMask.num).sum + um.num })
      h₁.mem (by rw [set_self, ← hdone, hnew]) (by rw [hlen]; exact Nat.le_of_not_lt hroom)
    rw [hcopy, Results.ok_then, set_self, set_set, mergedUm_append, hlen, h₁.eq]
    rfl

/-- A part that the files have a unit mask for is merged if it may be. -/
theorem MergeAt.one (h : MergeAt s₀ start s new value done) {known : Option UnitMaskType}
    (hknown : ∀ type, known = some type → Mergeable type done) (hfirst : known = none → done = [])
    (hfind : s.tryFindUm part = some (addr, s.set addr (EventsFile.marked (s.ums addr)))) (ha : addr ∈ s₀.umList)
    (hum : EventsFile.marked (s.ums addr) = EventsFile.marked um) :
    (Mergeable (known.getD um.unitTypeMask) (done ++ [um]) ∧
        ∃ s', s.mergeOne new part known (done.map OpUnitMask.num).sum =
            .ok (known.getD um.unitTypeMask, ((done ++ [um]).map OpUnitMask.num).sum, s') ∧
          MergeAt s₀ start s' new value (done ++ [um])) ∨
      ¬Mergeable (known.getD um.unitTypeMask) (done ++ [um]) ∧
        ∃ context, s.mergeOne new part known (done.map OpUnitMask.num).sum = .error (.exit context) := by
  rw [h.mergeOne_eq known hfind ha hum]
  split_ifs with hsame hkind hroom
  · exact .inr ⟨fun hm => hsame (hm.2.1 um (by simp)), _, rfl⟩
  · exact .inr ⟨fun hm => hm.1.elim hkind.1 hkind.2, _, rfl⟩
  · exact .inr ⟨fun hm => Nat.not_le.mpr hroom hm.2.2, _, rfl⟩
  · have hle := Nat.le_of_not_lt hroom
    have hlen := h.length_take ha hum
    have hdone := h.table.bounded.num_eq new h.mem
    rw [h.eq] at hdone
    have hgrown : (mergedUm value .mandatory (done ++ [um])).num =
        (mergedUm value .mandatory (done ++ [um])).um.length := by
      rw [mergedUm_append]
      dsimp only
      rw [List.length_append, hlen, hdone]
    refine .inl ⟨⟨?_, fun part hpart => ?_, hle⟩, _, rfl, (h.marked ha).update hgrown hle⟩
    · by_contra hn
      exact hkind (not_or.mp hn)
    · rcases List.mem_append.mp hpart with hold | hlast
      · cases known with
        | none =>
          rw [hfirst rfl] at hold
          cases hold
        | some type => exact (hknown type rfl).2.1 part hold
      · rw [List.mem_singleton.mp hlast]
        exact not_not.mp hsame

/-- The type of the first unit mask. -/
def firstType (ums : List OpUnitMask) : Option UnitMaskType := ums.head?.map OpUnitMask.unitTypeMask

/-- Unit masks that can be merged, as far as they go. -/
def MergeableSoFar (ums : List OpUnitMask) : Prop := ∀ type, firstType ums = some type → Mergeable type ums

theorem MergeableSoFar.front (h : MergeableSoFar (done ++ ums)) : MergeableSoFar done := by
  intro type htype
  have hfirst : firstType (done ++ ums) = some type := by
    obtain ⟨um, hum, rfl⟩ := Option.map_eq_some_iff.mp htype
    rw [firstType, List.head?_append_of_ne_nil, hum]
    · rfl
    · rintro rfl
      cases hum
  obtain ⟨hkind, hsame, hroom⟩ := h type hfirst
  refine ⟨hkind, fun um hum => hsame um (List.mem_append_left _ hum), ?_⟩
  rw [List.map_append, List.sum_append] at hroom
  omega

theorem firstType_append (done : List OpUnitMask) (um : OpUnitMask) :
    firstType (done ++ [um]) = some ((firstType done).getD um.unitTypeMask) := by
  cases done <;> rfl

theorem mergeableSoFar_append : MergeableSoFar (done ++ [um]) ↔
    Mergeable ((firstType done).getD um.unitTypeMask) (done ++ [um]) := by
  rw [MergeableSoFar, firstType_append]
  simp

theorem mapM_named {table : List OpUnitMask} {parts : List Text} (h : named table part = some um) :
    (part :: parts).mapM (named table) = some ums ↔ ∃ rest, parts.mapM (named table) = some rest ∧ um :: rest = ums := by
  simp [List.mapM_cons, h, Option.bind_eq_some_iff]

/-- The names between the commas, merged one after the other. -/
theorem MergeAt.loop (parts : List Text) (hparts : ∀ part ∈ parts, ',' ∉ part) :
    ∀ {done : List OpUnitMask} {s : UmState}, MergeAt s₀ start s new value done → MergeableSoFar done →
      (∃ ums, parts.mapM (named (umTable s₀)) = some ums ∧ MergeableSoFar (done ++ ums) ∧
          ∃ s', mergeLoop new parts (firstType done) (done.map OpUnitMask.num).sum s = .ok (firstType (done ++ ums), s') ∧
            MergeAt s₀ start s' new value (done ++ ums)) ∨
        (∀ ums, parts.mapM (named (umTable s₀)) = some ums → ¬MergeableSoFar (done ++ ums)) ∧
          ∃ context, mergeLoop new parts (firstType done) (done.map OpUnitMask.num).sum s = .error (.exit context) := by
  induction parts with
  | nil =>
    intro done s h hdone
    rw [← List.append_nil done] at h hdone
    exact .inl ⟨[], rfl, hdone, s, by rw [mergeLoop, List.append_nil], h⟩
  | cons part parts ih =>
    intro done s h hdone
    rw [mergeLoop]
    rcases h.table.tryFindUm part with
      ⟨addr, um, hfind, ha, hnamed, hum⟩ | ⟨hnamed, ⟨addr, hfind, hin, hout, hname⟩ | hnone⟩
    · have hfirst : firstType done = none → done = [] := fun hn =>
        List.head?_eq_none_iff.mp (Option.map_eq_none_iff.mp hn)
      rcases h.one hdone hfirst hfind ha hum with ⟨hmerge, s₁, hone, h₁⟩ | ⟨hmerge, context, hone⟩
      · rw [hone]
        dsimp only
        rw [← firstType_append]
        rcases ih (fun p hp => hparts p (List.mem_cons_of_mem _ hp)) h₁ (mergeableSoFar_append.mpr hmerge) with
          ⟨ums, hums, hall, s', hloop, h'⟩ | ⟨hnot, context, hloop⟩
        · refine .inl ⟨um :: ums, (mapM_named hnamed).mpr ⟨ums, hums, rfl⟩, ?_⟩
          rw [List.append_assoc, List.singleton_append] at hall hloop h'
          exact ⟨hall, s', hloop, h'⟩
        · refine .inr ⟨fun ums hums => ?_, context, hloop⟩
          obtain ⟨rest, hrest, rfl⟩ := (mapM_named hnamed).mp hums
          have hrestNot := hnot rest hrest
          rwa [List.append_assoc] at hrestNot
      · rw [hone]
        refine .inr ⟨fun ums hums hall => ?_, context, rfl⟩
        obtain ⟨rest, -, rfl⟩ := (mapM_named hnamed).mp hums
        rw [← List.singleton_append, ← List.append_assoc] at hall
        exact hmerge (mergeableSoFar_append.mp hall.front)
    · obtain ⟨v, hv, hcomma⟩ := h.table.comma addr hin hout
      rw [hname] at hv
      cases hv
      exact (hparts part List.mem_cons_self hcomma).elim
    · have hexit : s.mergeOne new part (firstType done) (done.map OpUnitMask.num).sum =
          .error (.exit "could not find unit mask") := by
        unfold mergeOne
        rw [findUm, hnone]
        rfl
      rw [hexit]
      refine .inr ⟨fun ums hums => ?_, _, rfl⟩
      rw [List.mapM_cons, hnamed] at hums
      cases hums

theorem splitCommas_comma (value : Text) : ∀ part ∈ splitCommas value, ',' ∉ part := by
  induction value with
  | nil => simp [splitCommas]
  | cons c value ih =>
    rw [splitCommas]
    split_ifs with hc
    · intro part hpart
      rcases List.mem_cons.mp hpart with rfl | hrest
      · simp
      · exact ih part hrest
    · split
      · next hnil =>
        intro part hpart
        rw [List.mem_singleton.mp hpart, List.mem_singleton]
        exact fun h => hc h.symm
      · next first rest hsplit =>
        rw [hsplit] at ih
        intro part hpart
        rcases List.mem_cons.mp hpart with rfl | hrest
        · rw [List.mem_cons, not_or]
          exact ⟨fun h => hc h.symm, ih first List.mem_cons_self⟩
        · exact ih part (List.mem_cons_of_mem _ hrest)

/-! ### The tag -/

theorem newUnitMask_other (hin : addr ∈ s.newUnitMask.umList) (hne : addr ≠ s.next) :
    addr ∈ s.umList ∧ s.newUnitMask.ums addr = s.ums addr := by
  refine ⟨?_, if_neg hne⟩
  rcases List.mem_append.mp hin with hold | hnew
  · exact hold
  · exact (hne (List.mem_singleton.mp hnew)).elim

/-- A unit mask that is merged begins with no parts. -/
theorem Extends.begin (h : Extends s₀ s none) (hcomma : ',' ∈ value) :
    MergeAt s₀ s (s.newUnitMask.set s.next { s.newUnitMask.ums s.next with name := some value, used := true }) s.next
      value [] := by
  have hfresh : s.next ∉ s.umList := fun hin => Nat.lt_irrefl _ (h.bounded.allocated _ hin)
  have hframe := (Bounded.frame_newUnitMask h.bounded).set_new hfresh
    { s.newUnitMask.ums s.next with name := some value, used := true }
  refine ⟨⟨?_, h.frame.trans hframe, fun a hin hout => ?_, fun a hin hout hne v hname => ?_⟩, hframe, h.frame,
    mem_newUnitMask s, hfresh, hcomma, ?_⟩
  · apply h.bounded.newUnitMask.set
    · rw [newUnitMask_self]
      rfl
    · rw [newUnitMask_self]
      exact Nat.zero_le _
  · by_cases heq : a = s.next
    · rw [heq, set_self]
      exact ⟨value, rfl, hcomma⟩
    · obtain ⟨hold, hsame⟩ := newUnitMask_other hin heq
      rw [set_other _ heq, hsame]
      exact h.comma a hold hout
  · have heq : a ≠ s.next := fun heq => hne (congrArg some heq)
    obtain ⟨hold, hsame⟩ := newUnitMask_other hin heq
    rw [set_other _ heq, hsame] at hname ⊢
    exact h.merged a hold hout (by simp) v hname
  · rw [set_self, newUnitMask_self]
    rfl

/-- What has been merged stands for its name. -/
theorem MergeAt.finish (h : MergeAt s₀ start s new value ums) {type : UnitMaskType}
    (hunit : unitOf (umTable s₀) value = some (mergedUm value type ums)) :
    Extends s₀ (s.set new { s.ums new with unitTypeMask := type }) none ∧
      Frame start (s.set new { s.ums new with unitTypeMask := type }) ∧
      unitOf (umTable s₀) value =
        some (EventsFile.marked ((s.set new { s.ums new with unitTypeMask := type }).ums new)) := by
  have hnum := h.table.bounded.num_eq new h.mem
  have hle := h.table.bounded.num_le new h.mem
  rw [h.eq] at hnum hle
  have hnow : unitOf (umTable s₀) value =
      some (EventsFile.marked ((s.set new { s.ums new with unitTypeMask := type }).ums new)) := by
    rw [set_self, h.eq, hunit]
    rfl
  refine ⟨⟨?_, h.table.frame.set_new h.out _, fun a hin hout => ?_, fun a hin hout _ v hname => ?_⟩,
    h.frame.set_new h.fresh _, hnow⟩
  · rw [h.eq]
    exact h.table.bounded.set hnum hle
  · by_cases heq : a = new
    · rw [heq, set_self, h.eq]
      exact ⟨value, rfl, h.comma⟩
    · rw [set_other _ heq]
      exact h.table.comma a hin hout
  · by_cases heq : a = new
    · subst heq
      rw [set_self, h.eq] at hname
      cases hname
      exact hnow
    · rw [set_other _ heq] at hname ⊢
      exact h.table.merged a hin hout (fun hsome => heq (Option.some.inj hsome)) v hname

theorem unitOf_parts {table : List OpUnitMask} (hnone : named table value = none) (hcomma : ',' ∈ value)
    (hums : (splitCommas value).mapM (named table) = some ums) {type : UnitMaskType} (htype : firstType ums = some type) :
    unitOf table value = if Mergeable type ums then some (mergedUm value type ums) else none := by
  cases ums with
  | nil => cases htype
  | cons um ums =>
    cases htype
    simp [unitOf, hnone, hcomma, hums]

theorem unitOf_unmergeable {table : List OpUnitMask} (hnone : named table value = none)
    (hnot : ∀ ums, (splitCommas value).mapM (named table) = some ums → ¬MergeableSoFar ums) :
    unitOf table value = none := by
  unfold unitOf
  rw [hnone]
  dsimp only
  split_ifs with hcomma
  · split
    · next um ums hums =>
      rw [if_neg]
      intro hmerge
      refine hnot _ hums fun type htype => ?_
      cases htype
      exact hmerge
    · rfl
  · rfl

/-- What is there under a name is what the name stands for. -/
theorem Extends.found (h : Extends s₀ s none) (value : Text) :
    (∃ a, s.tryFindUm value = some (a, s.set a (EventsFile.marked (s.ums a))) ∧ a ∈ s.umList ∧
        unitOf (umTable s₀) value = some (EventsFile.marked (s.ums a))) ∨
      s.tryFindUm value = none ∧ named (umTable s₀) value = none := by
  rcases h.tryFindUm value with ⟨a, um, hfind, ha, hnamed, hum⟩ | ⟨hnamed, ⟨a, hfind, hin, hout, hname⟩ | hnone⟩
  · refine .inl ⟨a, hfind, h.frame.mem ha, ?_⟩
    rw [unitOf, hnamed, hum]
  · exact .inl ⟨a, hfind, hin, h.merged a hin hout (by simp) value hname⟩
  · exact .inr ⟨hnone, hnamed⟩

/-- The result for a tag: the unit mask its value stands for, or a message where it stands for none. -/
def Resolved (s₀ s : UmState) (value : Text) (r : Except UmStop (Nat × UmState)) : Prop :=
  (∃ a s', r = .ok (a, s') ∧ Extends s₀ s' none ∧ Frame s s' ∧ a ∈ s'.umList ∧
      unitOf (umTable s₀) value = some (EventsFile.marked (s'.ums a))) ∨
    unitOf (umTable s₀) value = none ∧ ∃ context, r = .error (.exit context)

theorem Extends.resolved_found (h : Extends s₀ s none) (ha : addr ∈ s.umList)
    (hunit : unitOf (umTable s₀) value = some (EventsFile.marked (s.ums addr))) :
    Resolved s₀ s value (.ok (addr, s.set addr (EventsFile.marked (s.ums addr)))) := by
  refine .inl ⟨addr, _, rfl, h.marked ha, frame_marked s addr, ha, ?_⟩
  rw [hunit, marked_set_marked]

/-- Merging finds or makes the unit mask of the value. -/
theorem Extends.mergeUm (h : Extends s₀ s none) (hcomma : ',' ∈ value) : Resolved s₀ s value (s.mergeUm value) := by
  unfold UmState.mergeUm
  rcases h.found value with ⟨a, hfind, ha, hunit⟩ | ⟨hnone, hnamed⟩
  · rw [hfind]
    exact h.resolved_found ha hunit
  · rw [hnone]
    dsimp only
    have hstart : MergeableSoFar [] := fun type htype => by cases htype
    rcases (h.begin hcomma).loop (splitCommas value) (splitCommas_comma value) hstart with
      ⟨ums, hums, hall, s', hloop, h'⟩ | ⟨hnot, context, hloop⟩
    · rw [List.nil_append] at hall hloop h'
      have hloop' : mergeLoop s.next (splitCommas value) none 0 _ = .ok (firstType ums, s') := hloop
      rw [hloop']
      cases htype : firstType ums with
      | none =>
        have hnil : ums = [] := List.head?_eq_none_iff.mp (Option.map_eq_none_iff.mp htype)
        subst hnil
        refine .inr ⟨?_, _, rfl⟩
        simp [unitOf, hnamed, hums]
      | some type =>
        have hunit := unitOf_parts hnamed hcomma hums htype
        rw [if_pos (hall type htype)] at hunit
        obtain ⟨hext, hframe, hnow⟩ := h'.finish hunit
        exact .inl ⟨s.next, _, rfl, hext, hframe, h'.mem, hnow⟩
    · have hloop' : mergeLoop s.next (splitCommas value) none 0 _ = .error (.exit context) := hloop
      rw [hloop']
      exact .inr ⟨unitOf_unmergeable hnamed hnot, context, rfl⟩

/-- So for any value. -/
theorem Extends.unitFor (h : Extends s₀ s none) (value : Text) : Resolved s₀ s value (unitFor s value) := by
  unfold EventsFile.unitFor
  split_ifs with hcomma
  · exact h.mergeUm hcomma
  · rw [findUm]
    rcases h.found value with ⟨a, hfind, ha, hunit⟩ | ⟨hnone, hnamed⟩
    · rw [hfind]
      exact h.resolved_found ha hunit
    · rw [hnone]
      refine .inr ⟨?_, _, rfl⟩
      rw [unitOf, hnamed]
      exact if_neg hcomma

/-! ### Unit masks that are used -/

/-- A unit mask that is marked as used is the first of its name. -/
structure UsedFirst (s : UmState) : Prop where
  nodup : s.umList.Nodup
  allocated : ∀ addr ∈ s.umList, addr < s.next
  first : ∀ addr ∈ s.umList, (s.ums addr).used = true →
    s.umList.find? (fun a => (s.ums a).name = (s.ums addr).name) = some addr

theorem usedFirst_init : UsedFirst init := ⟨List.nodup_nil, bounded_init.allocated, by simp [init]⟩

/-- The list, the names and the marks are the same. -/
structure Quiet (s s' : UmState) : Prop where
  list : s'.umList = s.umList
  next : s'.next = s.next
  name : ∀ addr, (s'.ums addr).name = (s.ums addr).name
  used : ∀ addr, (s'.ums addr).used = (s.ums addr).used

theorem Quiet.refl (s : UmState) : Quiet s s := ⟨rfl, rfl, fun _ => rfl, fun _ => rfl⟩

theorem Quiet.trans {s₁ s₂ s₃ : UmState} (h : Quiet s₁ s₂) (h' : Quiet s₂ s₃) : Quiet s₁ s₃ :=
  ⟨h'.list.trans h.list, h'.next.trans h.next, fun addr => (h'.name addr).trans (h.name addr),
    fun addr => (h'.used addr).trans (h.used addr)⟩

theorem quiet_set {addr : Nat} {um : OpUnitMask} (hname : um.name = (s.ums addr).name)
    (hused : um.used = (s.ums addr).used) : Quiet s (s.set addr um) := by
  refine ⟨rfl, rfl, fun a => ?_, fun a => ?_⟩
  all_goals
    by_cases h : a = addr
  · rw [h, set_self, hname]
  · rw [set_other um h]
  · rw [h, set_self, hused]
  · rw [set_other um h]

theorem UsedFirst.quiet (h : UsedFirst s) (hquiet : Quiet s s') : UsedFirst s' := by
  refine ⟨?_, ?_, fun addr haddr hused => ?_⟩
  · rw [hquiet.list]
    exact h.nodup
  · rw [hquiet.list, hquiet.next]
    exact h.allocated
  · rw [hquiet.list] at haddr ⊢
    rw [hquiet.used] at hused
    rw [find_name_congr (fun a _ => hquiet.name a), hquiet.name]
    exact h.first addr haddr hused

/-- Marking what is found. -/
theorem UsedFirst.marked (h : UsedFirst s) {addr : Nat} {value : Text}
    (hfind : s.umList.find? (fun a => (s.ums a).name = some value) = some addr) :
    UsedFirst (s.set addr (marked (s.ums addr))) := by
  refine ⟨h.nodup, h.allocated, fun a ha hused => ?_⟩
  rw [set_umList, name_set_marked, find_name_congr fun b _ => name_set_marked s addr b]
  by_cases heq : a = addr
  · have hname : (s.ums addr).name = some value := by simpa using List.find?_some hfind
    rw [heq, hname]
    exact hfind
  · rw [set_other _ heq] at hused
    exact h.first a ha hused

/-- A new unit mask is not used, or the only one of its name. -/
theorem UsedFirst.added (h : UsedFirst s) {um : OpUnitMask}
    (hnew : um.used = true → s.umList.find? (fun a => (s.ums a).name = um.name) = none) :
    UsedFirst (s.newUnitMask.set s.next um) := by
  have hold : ∀ a ∈ s.umList, (s.newUnitMask.set s.next um).ums a = s.ums a := by
    intro a ha
    have hne : a ≠ s.next := (h.allocated a ha).ne
    rw [set_other um hne]
    exact if_neg hne
  have hfront : ∀ name, s.umList.find? (fun a => ((s.newUnitMask.set s.next um).ums a).name = name) =
      s.umList.find? fun a => (s.ums a).name = name :=
    find_name_congr fun a ha => congrArg OpUnitMask.name (hold a ha)
  have hlist : (s.newUnitMask.set s.next um).umList = s.umList ++ [s.next] := rfl
  refine ⟨?_, fun a ha => ?_, fun a ha hused => ?_⟩
  · rw [hlist]
    refine List.nodup_append.mpr ⟨h.nodup, List.nodup_singleton _, fun a ha b hb heq => ?_⟩
    rw [List.mem_singleton.mp hb] at heq
    exact (h.allocated a ha).ne heq
  · rcases List.mem_append.mp ha with hin | hlast
    · exact Nat.lt_succ_of_lt (h.allocated a hin)
    · rw [List.mem_singleton.mp hlast]
      exact Nat.lt_succ_self _
  · rw [hlist, List.find?_append, hfront]
    rcases List.mem_append.mp ha with hin | hlast
    · rw [hold a hin] at hused ⊢
      rw [h.first a hin hused]
      rfl
    · rw [List.mem_singleton.mp hlast] at hused ⊢
      rw [set_self] at hused ⊢
      rw [hnew hused]
      simp

theorem UsedFirst.freed (h : UsedFirst s) : UsedFirst (s.newUnitMask.freeUnitMask s.next) := by
  have hout : s.next ∉ s.umList := fun hin => Nat.lt_irrefl _ (h.allocated _ hin)
  have hlist : (s.newUnitMask.freeUnitMask s.next).umList = s.umList := by
    simp [freeUnitMask, UmState.newUnitMask, List.erase_append_right _ hout]
  have hold : ∀ a ∈ s.umList, (s.newUnitMask.freeUnitMask s.next).ums a = s.ums a :=
    fun a ha => if_neg (h.allocated a ha).ne
  refine ⟨?_, fun a ha => ?_, fun a ha hused => ?_⟩
  · rw [hlist]
    exact h.nodup
  · rw [hlist] at ha
    exact Nat.lt_succ_of_lt (h.allocated a ha)
  · rw [hlist] at ha ⊢
    rw [find_name_congr fun b hb => congrArg OpUnitMask.name (hold b hb)]
    rw [hold a ha] at hused ⊢
    exact h.first a ha hused

theorem storeEntry_quiet {addr index : Nat} {entry : DescribedUm}
    (hok : s.storeEntry addr index entry = .ok s') : Quiet s s' := by
  unfold storeEntry at hok
  split_ifs at hok with hin
  cases hok
  exact quiet_set rfl rfl

theorem readEntry_quiet {addr : Nat} {line : Text} (hok : s.readEntry addr line = .ok s') : Quiet s s' := by
  unfold readEntry at hok
  obtain ⟨value, -, hok⟩ := Results.bind_ok hok
  split_ifs at hok with hin
  obtain ⟨entry, -, hok⟩ := Results.bind_ok hok
  obtain ⟨s₁, hstore, hok⟩ := Results.bind_ok hok
  cases hok
  exact (storeEntry_quiet hstore).trans (quiet_set rfl rfl)

/-- Reading unit masks marks none. -/
theorem readUmLines_usedFirst {included : Text → UmState → Except UmStop UmState}
    (hincluded : ∀ cpu s s', UsedFirst s → included cpu s = .ok s' → UsedFirst s') (lines : List Text) :
    ∀ (um : Option Nat) (s s' : UmState), UsedFirst s → UmState.readLines included um lines s = .ok s' →
      UsedFirst s' := by
  induction lines with
  | nil =>
    intro um s s' h hok
    cases hok
    exact h
  | cons line lines ih =>
    intro um s s' h hok
    unfold UmState.readLines at hok
    split_ifs at hok with hskip htab
    · exact ih um s s' h hok
    · cases hparse : parseUm line with
      | error stop =>
        rw [hparse] at hok
        cases hok
      | ok parsed =>
        rw [hparse] at hok
        cases parsed with
        | includes cpu =>
          dsimp only at hok
          cases hfile : included cpu (s.newUnitMask.freeUnitMask s.next) with
          | error stop =>
            rw [hfile] at hok
            cases hok
          | ok s₁ =>
            rw [hfile] at hok
            exact ih _ _ _ (hincluded cpu _ _ h.freed hfile) hok
        | um fields =>
          refine ih _ _ _ (h.added fun hused => ?_) hok
          rw [newUnitMask_self] at hused
          cases hused
    · cases um with
      | none => cases hok
      | some addr =>
        dsimp only at hok
        cases hentry : s.readEntry addr line with
        | error stop =>
          rw [hentry] at hok
          cases hok
        | ok s₁ =>
          rw [hentry] at hok
          exact ih _ _ _ (h.quiet (readEntry_quiet hentry)) hok

theorem readUnitMasks_usedFirst (umFiles : Text → Option (List Text)) (depth : Nat) :
    ∀ (cpu : Text) (s s' : UmState), UsedFirst s → readUnitMasks umFiles depth cpu s = .ok s' →
      UsedFirst s' := by
  induction depth with
  | zero =>
    intro cpu s s' _ hok
    cases hok
  | succ depth ih =>
    intro cpu s s' h hok
    rw [readUnitMasks] at hok
    cases hfile : umFiles cpu with
    | none =>
      rw [hfile] at hok
      cases hok
    | some lines =>
      rw [hfile] at hok
      exact readUmLines_usedFirst ih lines none s s' h hok

theorem tryFindUm_usedFirst {value : Text} {addr : Nat} (h : UsedFirst s)
    (hfound : s.tryFindUm value = some (addr, s')) : UsedFirst s' := by
  obtain ⟨a, hfind, hpair⟩ := Option.map_eq_some_iff.mp hfound
  cases hpair
  exact h.marked hfind

theorem findUm_usedFirst {value : Text} {addr : Nat} (h : UsedFirst s)
    (hfound : s.findUm value = .ok (addr, s')) : UsedFirst s' := by
  unfold findUm at hfound
  split at hfound
  · next found hsome =>
    cases hfound
    exact tryFindUm_usedFirst h hsome
  · cases hfound

theorem copyEntries_quiet {new : Nat} (entries : List DescribedUm) :
    ∀ (num : Nat) (s : UmState) {num' : Nat} {s' : UmState}, copyEntries new entries num s = .ok (num', s') →
      Quiet s s' := by
  induction entries with
  | nil =>
    intro num s num' s' hok
    cases hok
    exact .refl s
  | cons entry entries ih =>
    intro num s num' s' hok
    rw [copyEntries] at hok
    cases hstore : s.storeEntry new num entry with
    | error stop =>
      rw [hstore] at hok
      cases hok
    | ok s₁ =>
      rw [hstore] at hok
      exact (storeEntry_quiet hstore).trans (ih _ _ hok)

theorem mergeOne_usedFirst {new num num' : Nat} {part : Text} {known : Option UnitMaskType} {type : UnitMaskType}
    (h : UsedFirst s) (hok : s.mergeOne new part known num = .ok (type, num', s')) : UsedFirst s' := by
  unfold mergeOne at hok
  obtain ⟨⟨addr, s₁⟩, hfound, hok⟩ := Results.bind_ok hok
  dsimp only at hok
  split_ifs at hok with hsame hkind hroom
  obtain ⟨⟨num₁, s₂⟩, hcopy, hok⟩ := Results.bind_ok hok
  cases hok
  have hcopied := copyEntries_quiet _ _ _ hcopy
  have hquiet : Quiet s₁ s₂ := by
    refine Quiet.trans ?_ hcopied
    exact quiet_set rfl rfl
  exact (findUm_usedFirst h hfound).quiet hquiet

theorem mergeLoop_usedFirst {new : Nat} (parts : List Text) :
    ∀ {known type : Option UnitMaskType} {num : Nat} {s s' : UmState}, UsedFirst s →
      mergeLoop new parts known num s = .ok (type, s') → UsedFirst s' := by
  induction parts with
  | nil =>
    intro known type num s s' h hok
    cases hok
    exact h
  | cons part parts ih =>
    intro known type num s s' h hok
    rw [mergeLoop] at hok
    cases hone : s.mergeOne new part known num with
    | error stop =>
      rw [hone] at hok
      cases hok
    | ok found =>
      obtain ⟨type₁, num₁, s₁⟩ := found
      rw [hone] at hok
      exact ih (mergeOne_usedFirst h hone) hok

/-- A tag marks what its value stands for, or adds the only unit mask of that name. -/
theorem unitFor_usedFirst {value : Text} {addr : Nat} (h : UsedFirst s)
    (hok : unitFor s value = .ok (addr, s')) : UsedFirst s' := by
  unfold EventsFile.unitFor at hok
  split_ifs at hok with hcomma
  · unfold UmState.mergeUm at hok
    cases hfind : s.tryFindUm value with
    | some found =>
      rw [hfind] at hok
      cases hok
      exact tryFindUm_usedFirst h hfind
    | none =>
      rw [hfind] at hok
      dsimp only at hok
      split at hok
      · cases hok
      · cases hok
      · next type s₁ hloop =>
        cases hok
        refine (mergeLoop_usedFirst _ (h.added fun _ => ?_) hloop).quiet (quiet_set rfl rfl)
        exact Option.map_eq_none_iff.mp hfind
  · exact findUm_usedFirst h hok

end Oprofile.Libop.EventsFile
