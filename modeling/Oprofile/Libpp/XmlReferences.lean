import Oprofile.Libpp.XmlSymbols
import Oprofile.Libpp.ModuleSummary

/-! Cross references of the XML reports. -/
namespace Oprofile.Libpp

open SampleNames

/-- The range of ids that is written for so many details. -/
def detailRange (start : Nat) : Nat → Option (Nat × Nat)
  | 0 => none
  | n + 1 => some (start, start + n)

/-- Whether the range of a symbol element holds an id. -/
def SymbolElement.Covers (e : SymbolElement) (id : Nat) : Prop :=
  ∃ lo hi, e.detail = some (lo, hi) ∧ lo ≤ id ∧ id ≤ hi

instance (e : SymbolElement) (id : Nat) : Decidable (e.Covers id) :=
  match h : e.detail with
  | none => isFalse fun ⟨_, _, heq, _⟩ => by
    rw [h] at heq
    cases heq
  | some (lo, hi) => decidable_of_iff (lo ≤ id ∧ id ≤ hi) (by simp [SymbolElement.Covers, h, and_assoc])

namespace XmlFormatter

variable (f : XmlFormatter)

/-- The samples of a call's symbol with the classes of its range that have a count there. -/
def counted (call : SymbolCall) : List (SymbolEntry × SampleEntry × Nat) :=
  (byVma.sort (samplesOf call.symb.2 f.profile.samples)).flatMap fun it =>
    ((List.range' call.lo (call.hi + 1 - call.lo)).filter fun p => it.2.counts.get (UInt32.ofNat p) ≠ 0).map
      fun p => (call.symb.1, it.2, p)

/-- One element for each of them, with ids in order. -/
def numbered (start : Nat) (pairs : List (SymbolEntry × SampleEntry × Nat)) : List DetailData :=
  (pairs.zipIdx start).map fun x => f.detailData x.1.1 x.1.2.1 x.1.2.2 x.2

end XmlFormatter

/-- The details under one id. -/
def detailsOf (id : Nat) (tables : List DetailTable) : List DetailData :=
  (tables.filter fun d => d.id = id).flatMap (·.details)

namespace XmlFormatter

variable (f : XmlFormatter)

/-- The names of a symbol's image and of the symbol. -/
def imageText (symb : SymbolEntry) : Text := f.profile.names.imageNames.get symb.imageName

def nameText (symb : SymbolEntry) : Text := f.profile.names.symbolNames.get symb.name

/-- The image-qualified name: `image:name`. -/
def qualified (symb : SymbolEntry) : Text := f.imageText symb ++ [':'] ++ f.nameText symb

/-- What is printed as the name of a symbol; nothing when it is demangled to an empty name. -/
def printedName (symb : SymbolEntry) : Option Text :=
  if demangle f.demangleSymbol (f.nameText symb) = [] then none else some (demangle f.demangleSymbol (f.nameText symb))

/-- The element of the symbol table is that of a symbol with this image-qualified name, which is the symbol's own
image and name when no image has a colon in its name. -/
structure Carries (symb : SymbolEntry) (data : SymbolData) : Prop where
  of : ∃ own ∈ f.symbols, f.qualified own.1 = f.qualified symb ∧ data.name = f.printedName own.1
  own : (∀ s ∈ f.symbols, ':' ∉ f.imageText s.1) → (∃ own ∈ f.symbols, f.imageText own.1 = f.imageText symb ∧
    f.nameText own.1 = f.nameText symb) ∧ data.name = f.printedName symb

end XmlFormatter

section

variable {f : XmlFormatter} {call : SymbolCall} {start id : Nat} {xs ys zs : List (SymbolEntry × SampleEntry × Nat)}

end

/-! What the tables hold while the tree is written. -/

/-- The details of the symbol elements with one index, one after the other. -/
def piecesOf (f : XmlFormatter) (written : List SymbolElement) (i : Nat) : List (SymbolEntry × SampleEntry × Nat) :=
  (written.filter fun e => e.idref = i).flatMap fun e => f.counted e.call

/-- What `symbol_details` holds for an index with these details. -/
def detailsWith (f : XmlFormatter) (i : Nat) (pieces : List (SymbolEntry × SampleEntry × Nat)) : SymbolDetails :=
  ⟨if pieces = [] then -1 else Int32.ofNat i, pieces.length, f.numbered 0 pieces⟩

structure Printed (f : XmlFormatter) (written : List SymbolElement) (t : XmlTables) : Prop where
  member : ∀ e ∈ written, e.call.symb ∈ f.symbols
  known : ∀ e ∈ written, KeyMap.find (f.qname e.call.symb.1) t.symbolData.entries = some e.idref
  names : t.symbolData.entries.map Prod.fst = (written.map fun e => f.qname e.call.symb.1).eraseDups
  details : ∀ i, t.symbolDetails.getD i .new = detailsWith f i (piecesOf f written i)
  ranges : ∀ before e after, written = before ++ e :: after →
    e.detail = detailRange (piecesOf f before e.idref).length (f.counted e.call).length

section

variable {f : XmlFormatter} {call : SymbolCall} {written before after : List SymbolElement} {e : SymbolElement}
  {t : XmlTables} {i j : Nat} {sd : SymbolDetails} {l : List SymbolDetails}

end

/-! The tree of a report. -/

/-- A part of the output that keeps the tables in step with its symbol elements. -/
def Keeps {B : Type} (f : XmlFormatter) (elements : B → List SymbolElement) (step : XmlTables → B × XmlTables) : Prop :=
  ∀ written t, Printed f written t → Printed f (written ++ elements (step t).1) (step t).2

section

variable {A B C : Type} {f : XmlFormatter} {elements : B → List SymbolElement} {elements' : C → List SymbolElement}
  {step : A → XmlTables → B × XmlTables}

/-- A part with the symbol elements of another. -/
theorem Keeps.map {part : XmlTables → B × XmlTables} {part' : XmlTables → C × XmlTables} (h : Keeps f elements part)
    (g : B → C) (hpart : ∀ t, part' t = (g (part t).1, (part t).2)) (hg : ∀ b, elements' (g b) = elements b) :
    Keeps f elements' part' := by
  intro written t hprinted
  rw [hpart, hg]
  exact h written t hprinted

/-- The symbol elements of a thread. -/
def ThreadElement.symbols (t : ThreadElement) : List SymbolElement := t.modules.flatMap (·.symbols)

/-- The symbol elements of a process. -/
def ProcessElement.symbols (p : ProcessElement) : List SymbolElement := p.threads.flatMap ThreadElement.symbols

end

/-! The references. -/

section

variable {f : XmlFormatter} {written before : List SymbolElement} {e : SymbolElement} {t : XmlTables}
  {start n id : Nat} {xs ys zs : List (SymbolEntry × SampleEntry × Nat)}

theorem covers_iff (h : e.detail = detailRange start n) : e.Covers id ↔ start ≤ id ∧ id < start + n := by
  rw [SymbolElement.Covers, h]
  cases n with
  | zero =>
    constructor
    · rintro ⟨lo, hi, heq, -⟩
      cases heq
    · intro hid
      omega
  | succ n =>
    constructor
    · rintro ⟨lo, hi, heq, hlo, hhi⟩
      obtain ⟨rfl, rfl⟩ := Prod.mk.inj (Option.some.inj heq)
      exact ⟨hlo, by omega⟩
    · rintro ⟨hlo, hhi⟩
      exact ⟨start, start + n, rfl, hlo, by omega⟩

theorem detailsOf_cons (d : DetailTable) (tables : List DetailTable) :
    detailsOf id (d :: tables) = (if d.id = id then d.details else []) ++ detailsOf id tables := by
  rw [detailsOf, List.filter_cons]
  by_cases hid : d.id = id
  · rw [if_pos (decide_eq_true hid), if_pos hid, List.flatMap_cons]
    rfl
  · rw [if_neg (by rwa [decide_eq_true_iff]), if_neg hid]
    rfl

/-- The details table, when each index has its own id or none. -/
theorem detailTable_spec (l : List SymbolDetails) (k : Nat)
    (h : ∀ j sd, l[j]? = some sd → sd.id = -1 ∧ sd.details = [] ∨ sd.id.toInt = ((k + j : Nat) : Int)) :
    List.Sublist ((XmlFormatter.detailTable l).map (·.id)) (List.range' k l.length) ∧
    ∀ i, detailsOf (k + i) (XmlFormatter.detailTable l) = (l.getD i .new).details := by
  induction l generalizing k with
  | nil => exact ⟨List.Sublist.refl _, fun i => by simp [XmlFormatter.detailTable, detailsOf, SymbolDetails.new]⟩
  | cons sd l ih =>
    obtain ⟨hsub, hdetails⟩ := ih (k + 1) fun j sd' hj => by
      have hsd := h (j + 1) sd' hj
      rwa [show k + (j + 1) = k + 1 + j by omega] at hsd
    have hlater : detailsOf k (XmlFormatter.detailTable l) = [] := by
      rw [detailsOf, List.filter_eq_nil_iff.mpr, List.flatMap_nil]
      intro d hd hid
      have hmem := hsub.subset (List.mem_map_of_mem hd)
      rw [List.mem_range'_1, of_decide_eq_true hid] at hmem
      omega
    rw [List.length_cons, List.range'_succ]
    rcases h 0 sd rfl with ⟨hid, hnone⟩ | hid
    · have htable : XmlFormatter.detailTable (sd :: l) = XmlFormatter.detailTable l := by
        rw [XmlFormatter.detailTable, List.filterMap_cons_none (by rw [hid]; rfl)]
        rfl
      rw [htable]
      refine ⟨hsub.cons k, fun i => ?_⟩
      cases i with
      | zero => exact hlater.trans hnone.symm
      | succ i =>
        rw [show k + (i + 1) = k + 1 + i by omega]
        exact hdetails i
    · have htable : XmlFormatter.detailTable (sd :: l) = ⟨k, sd.details⟩ :: XmlFormatter.detailTable l := by
        rw [XmlFormatter.detailTable, List.filterMap_cons_some (b := ⟨k, sd.details⟩)]
        · rfl
        · rw [hid, if_pos]
          · rfl
          · rw [ge_iff_le, Int32.le_iff_toInt_le, hid]
            exact Int.natCast_nonneg _
      rw [htable]
      refine ⟨hsub.cons_cons k, fun i => ?_⟩
      cases i with
      | zero =>
        rw [detailsOf_cons, if_pos (Nat.add_zero k).symm, Nat.add_zero, hlater, List.append_nil]
        rfl
      | succ i =>
        rw [detailsOf_cons, if_neg (by simp only; omega), List.nil_append, show k + (i + 1) = k + 1 + i by omega]
        exact hdetails i

/-- An entry of the table of details. -/
theorem Printed.entry (h : Printed f written t) {j : Nat} {sd : SymbolDetails} (hj : t.symbolDetails[j]? = some sd) :
    sd = detailsWith f j (piecesOf f written j) := by
  rw [← h.details, List.getD_eq_getElem?_getD, hj]
  rfl

/-- The index of a symbol is the place of its name among those written. -/
theorem Printed.place (h : Printed f written t) (he : e ∈ written) :
    e.idref = (written.map fun e => f.qname e.call.symb.1).eraseDups.idxOf (f.qname e.call.symb.1) := by
  rw [← h.names]
  exact Interning.place_of_find t.symbolData (h.known e he)

/-- Every index with details is an `int`. -/
theorem index_lt (hfew : ∀ e ∈ written, f.counted e.call ≠ [] → e.idref < 2 ^ 31) {j : Nat} (hp : piecesOf f written j ≠ []) : j < 2 ^ 31 := by
  obtain ⟨piece, hpiece⟩ := List.exists_mem_of_ne_nil _ hp
  obtain ⟨e, he, hin⟩ := List.mem_flatMap.mp hpiece
  obtain ⟨he, hidref⟩ := List.mem_filter.mp he
  rw [← of_decide_eq_true hidref]
  exact hfew e he (List.ne_nil_of_mem hin)

theorem Printed.detailTable (h : Printed f written t)
    (hfew : ∀ e ∈ written, f.counted e.call ≠ [] → e.idref < 2 ^ 31) :
    ((XmlFormatter.detailTable t.symbolDetails).map (·.id)).Nodup ∧
    ∀ i, detailsOf i (XmlFormatter.detailTable t.symbolDetails) = f.numbered 0 (piecesOf f written i) := by
  obtain ⟨hsub, hdetails⟩ := detailTable_spec t.symbolDetails 0 fun j sd hj => by
    rw [h.entry hj, detailsWith, Nat.zero_add]
    by_cases hp : piecesOf f written j = []
    · refine Or.inl ⟨if_pos hp, ?_⟩
      rw [hp]
      rfl
    · refine Or.inr ?_
      simp only [if_neg hp]
      exact Int32.toInt_ofNat_of_lt (index_lt hfew hp)
  refine ⟨hsub.nodup List.nodup_range', fun i => ?_⟩
  have hi := hdetails i
  rw [Nat.zero_add] at hi
  rw [hi, h.details]
  rfl

theorem qname_eq (f : XmlFormatter) (symb : SymbolEntry) : f.qname symb = f.qualified symb :=
  List.append_cons _ _ _

/-- The first colon of an image-qualified name stands behind the image, if the image has none. -/
theorem qualified_inj {a b : SymbolEntry} (ha : ':' ∉ f.imageText a) (hb : ':' ∉ f.imageText b)
    (h : f.qualified a = f.qualified b) : f.imageText a = f.imageText b ∧ f.nameText a = f.nameText b := by
  have hfront (x y : Text) (hx : ':' ∉ x) : (x ++ [':'] ++ y).takeWhile (· ≠ ':') = x := by
    rw [List.append_assoc, List.takeWhile_append_of_pos fun c hc => by simpa using ne_of_mem_of_not_mem hc hx]
    simp
  have himage : f.imageText a = f.imageText b := by
    rw [← hfront _ (f.nameText a) ha, ← hfront _ (f.nameText b) hb]
    exact congrArg _ h
  rw [XmlFormatter.qualified, XmlFormatter.qualified, himage] at h
  exact ⟨himage, List.append_cancel_left h⟩

theorem symbolData_name (id : Nat) (symb : SymbolEntry) : (f.symbolData id symb).name = f.printedName symb := by
  show (if demangle f.demangleSymbol (f.nameText symb) ≠ [] then _ else _) = _
  rw [ite_not]
  rfl

theorem carries {own : SymbolEntry × Nat} {symb : SymbolEntry} (hown : own ∈ f.symbols)
    (hmember : ∃ n, (symb, n) ∈ f.symbols) (hname : f.qname own.1 = f.qname symb) (id : Nat) :
    f.Carries symb (f.symbolData id own.1) := by
  rw [qname_eq, qname_eq] at hname
  refine ⟨⟨own, hown, hname, symbolData_name id own.1⟩, fun hcolon => ?_⟩
  obtain ⟨n, hn⟩ := hmember
  obtain ⟨himage, htext⟩ := qualified_inj (hcolon own hown) (hcolon _ hn) hname
  refine ⟨⟨own, hown, himage, htext⟩, ?_⟩
  rw [symbolData_name, XmlFormatter.printedName, htext]
  rfl

end

def oneSample : SampleEntry := ⟨⟨0, 0⟩, 16, CountArray.empty.set 0 1⟩

section

variable {f : XmlFormatter} {n i : Nat}

end

end Oprofile.Libpp
