import Oprofile.Opjitconv.Overlaps
import Mathlib.Data.List.Forall2
import Mathlib.Data.List.Perm.Basic

/-! Identical symbol names are made different by numbers (`jitsymbol.c`). -/
namespace Oprofile.Opjitconv

/-- `replacement_name`, in a buffer that is measured by the number. -/
def replacementName (s : List UInt8) (i : Nat) : List UInt8 :=
  let cnt := (decimal i).length + 2 + s.length
  (s ++ 0x7e :: decimal i).take (cnt - 1)

/-- The two loops of `disambiguate_symbol_names` over the entries behind `a`, as one walk: the name of `a`, the
next number for it, and `rep_cnt` for what is left. -/
def numberFrom (name : List UInt8) (cnt : Nat) : List JitEntry → List JitEntry × Nat
  | [] => ([], 0)
  | b :: rest =>
    if name = b.symbolName then
      let (rest, repCnt) := numberFrom name (cnt + 1) rest
      ({ b with symbolName := replacementName name cnt } :: rest, repCnt + 1)
    else
      let (rest, repCnt) := numberFrom b.symbolName 1 rest
      (b :: rest, repCnt)

/-- The scan of `disambiguate_symbol_names`: the entries and `rep_cnt`. -/
def numberDuplicates : List JitEntry → List JitEntry × Nat
  | [] => ([], 0)
  | a :: rest =>
    let (rest, repCnt) := numberFrom a.symbolName 1 rest
    (a :: rest, repCnt)

/-- `disambiguate_symbol_names`; nothing if an `int` cannot count the entries, or after `fuel` scans. -/
def disambiguateSymbolNames (sorts : Sorts) : Nat → List JitEntry → Option (List JitEntry)
  | 0, _ => none
  | fuel + 1, entries =>
    if intMax < entries.length then none
    else
      let (entries, repCnt) := numberDuplicates entries
      if repCnt ≠ 0 then disambiguateSymbolNames sorts fuel (sorts.symbolname.sort entries)
      else some entries

def names (es : List JitEntry) : List (List UInt8) := es.map JitEntry.symbolName

/-- A name with `~` and a positive number behind it. -/
def Numbered (name long : List UInt8) : Prop := ∃ i, 0 < i ∧ long = name ++ 0x7e :: decimal i

/-- A name with any number of such suffixes. -/
inductive Tagged (name : List UInt8) : List UInt8 → Prop
  | same : Tagged name name
  | add {long longer : List UInt8} (h : Tagged name long) (hn : Numbered long longer) : Tagged name longer

theorem Tagged.trans {a b c : List UInt8} (hab : Tagged a b) (hbc : Tagged b c) : Tagged a c := by
  induction hbc with
  | same => exact hab
  | add _ hn ih => exact .add ih hn

/-- The same entry under its name or a tagged one. -/
def Renames (e e' : JitEntry) : Prop :=
  Tagged e.symbolName e'.symbolName ∧ e' = { e with symbolName := e'.symbolName }

variable {es l : List JitEntry} {name w : List UInt8} {cnt : Nat}

theorem replacementName_eq (s : List UInt8) (i : Nat) : replacementName s i = s ++ 0x7e :: decimal i := by
  rw [replacementName]
  apply List.take_of_length_le
  simp only [List.length_append, List.length_cons]
  omega

theorem Numbered.length {long : List UInt8} (h : Numbered name long) : name.length + 2 ≤ long.length := by
  obtain ⟨i, -, rfl⟩ := h
  have hne : decimal i ≠ [] := by
    rw [decimal, ne_eq, List.map_eq_nil_iff]
    exact Nat.toDigits_ne_nil
  have hpos := List.length_pos_iff.mpr hne
  simp only [List.length_append, List.length_cons]
  omega

/-! One scan of the entries behind an entry with a name. -/

/-- The name of some entry that is not the only one, numbered. -/
def FromDuplicate (ns : List (List UInt8)) (w : List UInt8) : Prop := ∃ v, 2 ≤ ns.count v ∧ Numbered v w

theorem FromDuplicate.mono {ns ns' : List (List UInt8)} (h : FromDuplicate ns w) (hs : ns.Sublist ns') :
    FromDuplicate ns' w := by
  obtain ⟨v, hv, hn⟩ := h
  exact ⟨v, le_trans hv (hs.count_le v), hn⟩

/-- What a scan does to an entry among others with the names `ns`. -/
def Moves (ns : List (List UInt8)) (e e' : JitEntry) : Prop :=
  Renames e e' ∧ (e' = e ∨ 2 ≤ ns.count e.symbolName)

theorem numberFrom_moves (hcnt : 0 < cnt) :
    List.Forall₂ (Moves (name :: names l)) l (numberFrom name cnt l).1 := by
  induction l generalizing name cnt with
  | nil => exact .nil
  | cons b rest ih =>
    rw [numberFrom]
    split_ifs with hb
    · have hsub : (name :: names rest).Sublist (name :: names (b :: rest)) :=
        (List.sublist_cons_self _ _).cons_cons _
      refine .cons ⟨⟨?_, rfl⟩, Or.inr ?_⟩ ((ih (Nat.succ_pos cnt)).imp ?_)
      · rw [replacementName_eq, hb]
        exact .add .same ⟨cnt, hcnt, rfl⟩
      · rw [names, List.map_cons, hb, List.count_cons_self, List.count_cons_self]
        omega
      · rintro e e' ⟨hrenames, hsame | hdup⟩
        · exact ⟨hrenames, Or.inl hsame⟩
        · exact ⟨hrenames, Or.inr (le_trans hdup (hsub.count_le _))⟩
    · refine .cons ⟨⟨.same, rfl⟩, Or.inl rfl⟩ ((ih Nat.one_pos).imp ?_)
      rintro e e' ⟨hrenames, hsame | hdup⟩
      · exact ⟨hrenames, Or.inl hsame⟩
      · exact ⟨hrenames, Or.inr (le_trans hdup ((List.sublist_cons_self _ _).count_le _))⟩

/-- After a scan an entry has a name it had, or the numbered name of a duplicate. -/
theorem mem_numberFrom (hcnt : 0 < cnt) (hw : w ∈ names (numberFrom name cnt l).1) :
    w ∈ names l ∨ FromDuplicate (name :: names l) w := by
  induction l generalizing name cnt with
  | nil => exact Or.inl hw
  | cons b rest ih =>
    rw [numberFrom] at hw
    split_ifs at hw with hb
    · rcases List.mem_cons.mp hw with rfl | hw
      · right
        refine ⟨name, ?_, cnt, hcnt, replacementName_eq name cnt⟩
        rw [names, List.map_cons, ← hb, List.count_cons_self, List.count_cons_self]
        omega
      · rcases ih (Nat.succ_pos cnt) hw with hold | hdup
        · exact Or.inl (List.mem_cons_of_mem _ hold)
        · exact Or.inr (hdup.mono ((List.sublist_cons_self _ _).cons_cons _))
    · rcases List.mem_cons.mp hw with rfl | hw
      · exact Or.inl List.mem_cons_self
      · rcases ih Nat.one_pos hw with hold | hdup
        · exact Or.inl (List.mem_cons_of_mem _ hold)
        · exact Or.inr (hdup.mono (List.sublist_cons_self _ _))

/-- No name is lost: the first entry with it keeps it. -/
theorem names_kept (hw : w ∈ name :: names l) : w ∈ name :: names (numberFrom name cnt l).1 := by
  induction l generalizing name cnt with
  | nil => exact hw
  | cons b rest ih =>
    rw [numberFrom]
    split_ifs with hb
    · have hw' : w ∈ name :: names rest := by
        rcases List.mem_cons.mp hw with rfl | hw
        · exact List.mem_cons_self
        · rcases List.mem_cons.mp hw with rfl | hw
          · rw [hb]
            exact List.mem_cons_self
          · exact List.mem_cons_of_mem _ hw
      have hin : w ∈ name :: names (numberFrom name (cnt + 1) rest).1 := ih hw'
      rcases List.mem_cons.mp hin with rfl | hin
      · exact List.mem_cons_self
      · exact List.mem_cons_of_mem _ (List.mem_cons_of_mem _ hin)
    · rcases List.mem_cons.mp hw with rfl | hw
      · exact List.mem_cons_self
      · exact List.mem_cons_of_mem _ (ih hw)

theorem name_antisymm {a b : List UInt8} (hab : a ≤ b) (hba : b ≤ a) : a = b := List.le_antisymm hab hba

/-- In a sorted list the names behind another name do not come back to it. -/
theorem not_mem_of_sorted {b : List UInt8} {ns : List (List UInt8)} (hne : name ≠ b)
    (h : (name :: b :: ns).Pairwise (· ≤ ·)) : name ∉ b :: ns := by
  obtain ⟨hfirst, hrest⟩ := List.pairwise_cons.mp h
  intro hmem
  rcases List.mem_cons.mp hmem with rfl | hmem
  · exact hne rfl
  · have hle := (List.pairwise_cons.mp hrest).1 name hmem
    exact hne (name_antisymm (hfirst b List.mem_cons_self) hle)

/-- A name that is not the numbered name of a duplicate is there once at most after a scan. -/
theorem count_numberFrom (hcnt : 0 < cnt) (hsorted : (name :: names l).Pairwise (· ≤ ·))
    (hw : ¬FromDuplicate (name :: names l) w) : (name :: names (numberFrom name cnt l).1).count w ≤ 1 := by
  induction l generalizing name cnt with
  | nil => exact List.count_le_length
  | cons b rest ih =>
    rw [numberFrom]
    split_ifs with hb
    · have hsub : (name :: names rest).Sublist (name :: names (b :: rest)) :=
        (List.sublist_cons_self _ _).cons_cons _
      have hrec := ih (Nat.succ_pos cnt) (hsorted.sublist hsub) (fun hd => hw (hd.mono hsub))
      have hnew : replacementName name cnt ≠ w := by
        rintro rfl
        refine hw ⟨name, ?_, cnt, hcnt, replacementName_eq name cnt⟩
        rw [names, List.map_cons, ← hb, List.count_cons_self, List.count_cons_self]
        omega
      have hskip : (name :: replacementName name cnt :: names (numberFrom name (cnt + 1) rest).1).count w =
          (name :: names (numberFrom name (cnt + 1) rest).1).count w := by
        rw [List.count_cons, List.count_cons_of_ne hnew, List.count_cons]
      exact le_of_eq_of_le hskip hrec
    · have hsub : (names (b :: rest)).Sublist (name :: names (b :: rest)) := List.sublist_cons_self _ _
      have hrec := ih Nat.one_pos (hsorted.sublist hsub) (fun hd => hw (hd.mono hsub))
      by_cases hname : name = w
      · subst hname
        have hnot : name ∉ names (b :: (numberFrom b.symbolName 1 rest).1) := by
          intro hmem
          rcases List.mem_cons.mp hmem with hbn | hmem
          · exact hb hbn
          · rcases mem_numberFrom Nat.one_pos hmem with hold | hdup
            · exact not_mem_of_sorted hb hsorted (List.mem_cons_of_mem _ hold)
            · exact hw (hdup.mono hsub)
        change (name :: names (b :: (numberFrom b.symbolName 1 rest).1)).count name ≤ 1
        rw [List.count_cons_self, List.count_eq_zero.mpr hnot]
      · change (name :: names (b :: (numberFrom b.symbolName 1 rest).1)).count w ≤ 1
        rw [List.count_cons_of_ne hname]
        exact hrec

/-- A scan that renames nothing has found all names different; one that does has found a duplicate. -/
theorem numberFrom_repCnt (hsorted : (name :: names l).Pairwise (· ≤ ·)) :
    ((numberFrom name cnt l).2 = 0 → (numberFrom name cnt l).1 = l ∧ (name :: names l).Nodup) ∧
      ((numberFrom name cnt l).2 ≠ 0 → ∃ v, 2 ≤ (name :: names l).count v) := by
  induction l generalizing name cnt with
  | nil => exact ⟨fun _ => ⟨rfl, List.nodup_singleton name⟩, fun h => absurd rfl h⟩
  | cons b rest ih =>
    rw [numberFrom]
    split_ifs with hb
    · constructor
      · intro h
        cases h
      intro _
      refine ⟨name, ?_⟩
      rw [names, List.map_cons, ← hb, List.count_cons_self, List.count_cons_self]
      omega
    · have hsub : (names (b :: rest)).Sublist (name :: names (b :: rest)) := List.sublist_cons_self _ _
      obtain ⟨hzero, hsome⟩ := @ih b.symbolName 1 (hsorted.sublist hsub)
      constructor
      · intro h
        obtain ⟨heq, hnodup⟩ := hzero h
        exact ⟨congrArg (b :: ·) heq, List.nodup_cons.mpr ⟨not_mem_of_sorted hb hsorted, hnodup⟩⟩
      · intro h
        obtain ⟨v, hv⟩ := hsome h
        exact ⟨v, le_trans hv (hsub.count_le v)⟩

/-! One scan, and the scans until nothing is renamed. -/

/-- All names that are there twice have at least `d` characters. -/
def LongDuplicates (d : Nat) (ns : List (List UInt8)) : Prop := ∀ v, 2 ≤ ns.count v → d ≤ v.length

/-- The entries that a later scan may still rename. -/
def longNames (d : Nat) (es : List JitEntry) : Nat := es.countP fun e => d ≤ e.symbolName.length

theorem countP_le_of_forall₂ {A B : Type} {R : A → B → Prop} {p : A → Bool} {q : B → Bool} {as : List A}
    {bs : List B} (h : List.Forall₂ R as bs) (hpq : ∀ a b, R a b → q b = true → p a = true) :
    bs.countP q ≤ as.countP p := by
  induction h with
  | nil => exact le_rfl
  | @cons a b as bs hab _ ih =>
    rw [List.countP_cons, List.countP_cons]
    have hle : (if q b = true then 1 else 0) ≤ if p a = true then 1 else 0 := by
      split_ifs with hq hp
      · exact le_rfl
      · exact absurd (hpq a b hab hq) hp
      · exact Nat.zero_le 1
      · exact le_rfl
    omega

theorem longNames_lt {d : Nat} (hw : w ∈ names es) (hlen : w.length = d) : longNames (d + 2) es < longNames d es := by
  obtain ⟨e, he, rfl⟩ := List.mem_map.mp hw
  obtain ⟨front, back, rfl⟩ := List.append_of_mem he
  have hmono : ∀ l : List JitEntry, longNames (d + 2) l ≤ longNames d l := by
    intro l
    apply List.countP_mono_left
    intro x _ hx
    rw [decide_eq_true_eq] at hx ⊢
    omega
  have hfront := hmono front
  have hback := hmono back
  unfold longNames at hfront hback ⊢
  rw [List.countP_append, List.countP_append, List.countP_cons, List.countP_cons, hlen]
  simp only [le_refl, decide_true, if_true]
  rw [if_neg (by simp)]
  omega

theorem numberDuplicates_moves (es : List JitEntry) :
    List.Forall₂ (Moves (names es)) es (numberDuplicates es).1 := by
  cases es with
  | nil => exact .nil
  | cons a rest => exact .cons ⟨⟨.same, rfl⟩, Or.inl rfl⟩ (numberFrom_moves Nat.one_pos)

theorem numberDuplicates_repCnt (hsorted : (names es).Pairwise (· ≤ ·)) :
    ((numberDuplicates es).2 = 0 → (numberDuplicates es).1 = es ∧ (names es).Nodup) ∧
      ((numberDuplicates es).2 ≠ 0 → ∃ v, 2 ≤ (names es).count v) := by
  cases es with
  | nil => exact ⟨fun _ => ⟨rfl, List.nodup_nil⟩, fun h => absurd rfl h⟩
  | cons a rest =>
    obtain ⟨hzero, hsome⟩ := @numberFrom_repCnt rest a.symbolName 1 hsorted
    refine ⟨fun h => ?_, hsome⟩
    obtain ⟨heq, hnodup⟩ := hzero h
    exact ⟨congrArg (a :: ·) heq, hnodup⟩

/-- A scan that renames something: all duplicates it leaves are longer than the shortest it found, and fewer
entries have such names. -/
theorem numberDuplicates_step {d : Nat} (hsorted : (names es).Pairwise (· ≤ ·)) (hlong : LongDuplicates d (names es))
    (hrep : (numberDuplicates es).2 ≠ 0) :
    ∃ d', LongDuplicates d' (names (numberDuplicates es).1) ∧
      longNames d' (numberDuplicates es).1 < longNames d es := by
  classical
  have hex : ∃ n w, w.length = n ∧ 2 ≤ (names es).count w := by
    obtain ⟨w, hw⟩ := (numberDuplicates_repCnt hsorted).2 hrep
    exact ⟨w.length, w, rfl, hw⟩
  obtain ⟨w, hwlen, hw⟩ := Nat.find_spec hex
  have hmin : LongDuplicates (Nat.find hex) (names es) := by
    intro v hv
    exact Nat.find_min' hex ⟨v, rfl, hv⟩
  generalize Nat.find hex = d₀ at hwlen hmin
  refine ⟨d₀ + 2, ?_, ?_⟩
  · intro v hv
    by_contra hshort
    have hfrom : ¬FromDuplicate (names es) v := by
      rintro ⟨u, hu, hnumbered⟩
      have hlen := hnumbered.length
      have hd := hmin u hu
      omega
    have hone : (names (numberDuplicates es).1).count v ≤ 1 := by
      cases es with
      | nil => exact Nat.zero_le 1
      | cons a rest => exact count_numberFrom Nat.one_pos hsorted hfrom
    omega
  · have hkept : w ∈ names (numberDuplicates es).1 := by
      have hin : w ∈ names es := List.count_pos_iff.mp (by omega)
      cases es with
      | nil => exact hin
      | cons a rest => exact names_kept hin
    have hle : longNames d₀ (numberDuplicates es).1 ≤ longNames d₀ es := by
      apply countP_le_of_forall₂ (numberDuplicates_moves es)
      rintro e e' ⟨-, rfl | hdup⟩ hlen
      · exact hlen
      · exact decide_eq_true (hmin _ hdup)
    have hd : longNames d₀ es ≤ longNames d es := by
      apply List.countP_mono_left
      intro x _ hx
      rw [decide_eq_true_eq] at hx ⊢
      have hw' := hlong w hw
      omega
    have hlt := longNames_lt hkept hwlen
    omega

theorem Renames.trans {a b c : JitEntry} (hab : Renames a b) (hbc : Renames b c) : Renames a c := by
  obtain ⟨hname, hb⟩ := hab
  obtain ⟨hname', hc⟩ := hbc
  refine ⟨hname.trans hname', ?_⟩
  rw [hc, hb]

theorem forall₂_renames_trans {as bs cs : List JitEntry} (hab : List.Forall₂ Renames as bs)
    (hbc : List.Forall₂ Renames bs cs) : List.Forall₂ Renames as cs := by
  induction hab generalizing cs with
  | nil => exact hbc
  | cons h _ ih =>
    cases hbc with
    | cons h' hrest => exact .cons (h.trans h') (ih hrest)

/-- The scans end, with distinct names, when there is one more of them than entries that may be renamed. -/
theorem disambiguate_run (sorts : Sorts) {fuel d : Nat} (hfuel : longNames d es < fuel)
    (hlong : LongDuplicates d (names es)) (hcount : es.length ≤ intMax)
    (hsorted : (names es).Pairwise (· ≤ ·)) :
    ∃ out, disambiguateSymbolNames sorts fuel es = some out ∧ (names out).Nodup ∧
      ∃ es', es'.Perm out ∧ List.Forall₂ Renames es es' := by
  induction fuel generalizing es d with
  | zero => exact absurd hfuel (Nat.not_lt_zero _)
  | succ fuel ih =>
    rw [disambiguateSymbolNames, if_neg (Nat.not_lt.mpr hcount)]
    have hmoves : List.Forall₂ Renames es (numberDuplicates es).1 :=
      (numberDuplicates_moves es).imp fun _ _ h => h.1
    by_cases hrep : (numberDuplicates es).2 ≠ 0
    · simp only [if_pos hrep]
      obtain ⟨d', hlong', hless⟩ := numberDuplicates_step hsorted hlong hrep
      have hperm := sorts.symbolname.perm (numberDuplicates es).1
      have hnames : (names (sorts.symbolname.sort (numberDuplicates es).1)).Perm (names (numberDuplicates es).1) :=
        hperm.map _
      have hlong'' : LongDuplicates d' (names (sorts.symbolname.sort (numberDuplicates es).1)) := by
        intro v hv
        rw [hnames.count_eq] at hv
        exact hlong' v hv
      have hless' : longNames d' (sorts.symbolname.sort (numberDuplicates es).1) < fuel := by
        have hcountP := hperm.countP_eq fun e => d' ≤ e.symbolName.length
        unfold longNames at hless hfuel ⊢
        omega
      have hcount' : (sorts.symbolname.sort (numberDuplicates es).1).length ≤ intMax := by
        rw [hperm.length_eq, ← hmoves.length_eq]
        exact hcount
      have hsorted' : (names (sorts.symbolname.sort (numberDuplicates es).1)).Pairwise (· ≤ ·) :=
        List.pairwise_map.mpr (sorts.symbolname.sorted _)
      obtain ⟨out, hout, hnodup, es₁, hperm₁, hrenames⟩ := ih hless' hlong'' hcount' hsorted'
      obtain ⟨es₂, hrenames₂, hperm₂⟩ := List.perm_comp_forall₂ hperm.symm hrenames
      refine ⟨out, hout, hnodup, es₂, hperm₂.trans hperm₁, ?_⟩
      exact forall₂_renames_trans hmoves hrenames₂
    · simp only [if_neg hrep]
      obtain ⟨heq, hnodup⟩ := (numberDuplicates_repCnt hsorted).1 (not_not.mp hrep)
      exact ⟨_, rfl, by rwa [heq], _, List.Perm.refl _, hmoves⟩

/-- `disambiguate_symbol_names` ends, with distinct names, each the old one with numbers behind it. -/
theorem disambiguateSymbolNames_distinct (sorts : Sorts) (entries : List JitEntry)
    (hcount : entries.length ≤ intMax) (hsorted : entries.Pairwise fun a b => a.symbolName ≤ b.symbolName) :
    ∃ out, disambiguateSymbolNames sorts (entries.length + 1) entries = some out ∧ (names out).Nodup ∧
      ∃ renamed : List JitEntry, renamed.Perm out ∧ List.Forall₂ Renames entries renamed := by
  have hfuel : longNames 0 entries < entries.length + 1 := Nat.lt_succ_of_le List.countP_le_length
  exact disambiguate_run sorts hfuel (fun v _ => Nat.zero_le _) hcount (List.pairwise_map.mpr hsorted)

/-- Two entries `f`, and one that has the number already: two scans. -/
theorem disambiguateSymbolNames_distinct_twice :
    ∃ out, disambiguateSymbolNames insertionSorts 4
      [⟨10, none, 1, [0x66], 0, 1⟩, ⟨20, none, 1, [0x66], 0, 1⟩, ⟨30, none, 1, [0x66, 0x7e, 0x31], 0, 1⟩] = some out ∧
      (names out).Nodup := by
  obtain ⟨out, hout, hnodup, -⟩ := disambiguateSymbolNames_distinct insertionSorts
    [⟨10, none, 1, [0x66], 0, 1⟩, ⟨20, none, 1, [0x66], 0, 1⟩, ⟨30, none, 1, [0x66, 0x7e, 0x31], 0, 1⟩]
    (by decide) (by decide)
  exact ⟨out, hout, hnodup⟩

end Oprofile.Opjitconv
