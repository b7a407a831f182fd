import Oprofile.Libutilpp.DebugFile

/-! Which note of a section `get_build_id` takes for the build id. -/
namespace Oprofile.Libutilpp

/-- A note; what pads its name and its descriptor may be anything. -/
structure Note where
  type : Nat
  name : List UInt8
  desc : List UInt8
  namePad : List UInt8
  descPad : List UInt8
  type_lt : type < 2 ^ 32
  name_lt : name.length < 2 ^ 32
  desc_lt : desc.length < 2 ^ 32
  nameAligned : (name.length + namePad.length) % 4 = 0 ∧ namePad.length < 4
  descAligned : (desc.length + descPad.length) % 4 = 0 ∧ descPad.length < 4

namespace Note

def encode (order : ByteOrder.Order) (n : Note) : List UInt8 :=
  order.encode 4 n.name.length ++ (order.encode 4 n.desc.length ++ (order.encode 4 n.type ++
    (n.name ++ (n.namePad ++ (n.desc ++ n.descPad)))))

/-- `NT_GNU_BUILD_ID` under the name `GNU`. -/
def IsBuildId (n : Note) : Prop := n.type = 3 ∧ n.name = gnu

instance (n : Note) : Decidable n.IsBuildId := inferInstanceAs (Decidable (_ ∧ _))

end Note

def encodeNotes (order : ByteOrder.Order) (notes : List Note) : List UInt8 := notes.flatMap (Note.encode order)

/-- What is to be found: the descriptor of the first build id. -/
def firstBuildId (notes : List Note) : Option (List UInt8) := (notes.find? (decide ·.IsBuildId)).map Note.desc

def toBeFound : Option (List UInt8) → BuildId
  | none => .missing
  | some desc => .found desc

variable {order : ByteOrder.Order} {contents : List UInt8} {n : Note} {notes : List Note} {ptr d : Nat}

theorem gather_encode_four {v : Nat} (h : v < 2 ^ 32) : order.gather 4 (order.encode 4 v) = v := by
  rw [ByteOrder.gather_encode (Nat.le_refl 4)]
  exact Nat.mod_eq_of_lt h

theorem bfdGet32_encode {v : Nat} (front rest : List UInt8) (h : v < 2 ^ 32) (hptr : front.length = ptr) :
    bfdGet32 order (front ++ (order.encode 4 v ++ rest)) ptr = some v := by
  have hlen := ByteOrder.encode_length order 4 v
  rw [bfdGet32, if_pos (by rw [List.length_append, List.length_append, hlen]; omega), List.drop_left' hptr,
    List.take_left' hlen, gather_encode_four h]

/-- The header of the first note is what every round reads. -/
theorem header_encodeNotes (order : ByteOrder.Order) (n : Note) (notes : List Note) :
    bfdGet32 order (encodeNotes order (n :: notes)) 0 = some n.name.length ∧
      bfdGet32 order (encodeNotes order (n :: notes)) 4 = some n.desc.length ∧
      bfdGet32 order (encodeNotes order (n :: notes)) 8 = some n.type := by
  have htext : encodeNotes order (n :: notes) = order.encode 4 n.name.length ++ (order.encode 4 n.desc.length ++
      (order.encode 4 n.type ++ (n.name ++ (n.namePad ++ (n.desc ++ n.descPad)) ++ encodeNotes order notes))) := by
    show n.encode order ++ encodeNotes order notes = _
    rw [Note.encode]
    simp only [List.append_assoc]
  have hlen : ∀ v, (order.encode 4 v).length = 4 := ByteOrder.encode_length order 4
  rw [htext]
  refine ⟨?_, ?_, ?_⟩
  · exact bfdGet32_encode [] _ n.name_lt rfl
  · exact bfdGet32_encode (order.encode 4 n.name.length) _ n.desc_lt (hlen _)
  · rw [← List.append_assoc]
    exact bfdGet32_encode _ _ n.type_lt (by rw [List.length_append, hlen, hlen])

/-- A round whose header is not that of a build id moves on, up to the end of the section. -/
theorem getBuildIdLoop_other {a d t : Nat} (ha : bfdGet32 order contents 0 = some a)
    (hd : bfdGet32 order contents 4 = some d) (ht : bfdGet32 order contents 8 = some t) (hother : ¬(t = 3 ∧ a = 4))
    (ptr : Nat) : getBuildIdLoop order contents ptr = .missing := by
  induction hn : contents.length - ptr using Nat.strongRecOn generalizing ptr with
  | ind n ih =>
    rw [getBuildIdLoop]
    split_ifs with hptr
    · rw [ha, hd, ht]
      dsimp only
      rw [if_neg hother]
      exact ih _ (by omega) _ rfl
    · rfl

/-- How far a round moves on when the first header is that of a build id with `d` bytes. -/
def stride (d : Nat) : Nat := 12 + (4 + d) % 2 ^ 32

/-- Where the rounds end: past the section, or at a place that has the name behind it and the bytes of the descriptor
inside the section and the buffer. -/
def Stops (contents : List UInt8) (d ptr : Nat) : Option (List UInt8) → Prop
  | none => contents.length ≤ ptr
  | some desc =>
    ptr < contents.length ∧ strcmpIs contents gnu (ptr + 12) = some true ∧ ptr + 16 + d ≤ contents.length ∧ d ≤ 64 ∧
      (contents.drop (ptr + 16)).take d = desc

/-- The places from one on, a stride apart, up to the first where the rounds end; at the others something else than
the name can be read. -/
def Walks (contents : List UInt8) (d ptr : Nat) (e : Option (List UInt8)) : Prop :=
  ∃ k, (∀ j < k, ptr + j * stride d < contents.length ∧
      strcmpIs contents gnu (ptr + j * stride d + 12) = some false) ∧ Stops contents d (ptr + k * stride d) e

theorem walks_zero {e : Option (List UInt8)}
    (h : ¬(ptr < contents.length ∧ strcmpIs contents gnu (ptr + 12) = some false)) :
    Walks contents d ptr e ↔ Stops contents d ptr e := by
  constructor
  · rintro ⟨k, hbefore, hstop⟩
    cases k with
    | zero => rwa [Nat.zero_mul, Nat.add_zero] at hstop
    | succ k =>
      have hfirst := hbefore 0 (Nat.succ_pos k)
      rw [Nat.zero_mul, Nat.add_zero] at hfirst
      exact absurd hfirst h
  · intro hstop
    refine ⟨0, fun j hj => absurd hj (Nat.not_lt_zero j), ?_⟩
    rwa [Nat.zero_mul, Nat.add_zero]

theorem walks_succ {e : Option (List UInt8)} (hptr : ptr < contents.length)
    (hdiffers : strcmpIs contents gnu (ptr + 12) = some false) :
    Walks contents d ptr e ↔ Walks contents d (ptr + stride d) e := by
  have hshift : ∀ j, ptr + stride d + j * stride d = ptr + (j + 1) * stride d := by
    intro j
    rw [Nat.succ_mul]
    omega
  constructor
  · rintro ⟨k, hbefore, hstop⟩
    cases k with
    | zero =>
      rw [Nat.zero_mul, Nat.add_zero] at hstop
      cases e with
      | none => exact absurd hptr (Nat.not_lt.mpr hstop)
      | some desc =>
        have hname := hstop.2.1
        rw [hdiffers] at hname
        cases hname
    | succ k =>
      refine ⟨k, fun j hj => ?_, ?_⟩
      · rw [hshift]
        exact hbefore (j + 1) (Nat.succ_lt_succ hj)
      · rw [hshift]
        exact hstop
  · rintro ⟨k, hbefore, hstop⟩
    refine ⟨k + 1, fun j hj => ?_, ?_⟩
    · cases j with
      | zero =>
        rw [Nat.zero_mul, Nat.add_zero]
        exact ⟨hptr, hdiffers⟩
      | succ j =>
        have hlater := hbefore j (Nat.lt_of_succ_lt_succ hj)
        rwa [hshift] at hlater
    · rwa [hshift] at hstop

/-- Under a first header of a build id with `d` bytes, the loop finds what the places a stride apart have. -/
theorem getBuildIdLoop_walks (ha : bfdGet32 order contents 0 = some 4) (hd : bfdGet32 order contents 4 = some d)
    (ht : bfdGet32 order contents 8 = some 3) (ptr : Nat) (e : Option (List UInt8)) :
    getBuildIdLoop order contents ptr = toBeFound e ↔ Walks contents d ptr e := by
  induction hn : contents.length - ptr using Nat.strongRecOn generalizing ptr with
  | ind n ih =>
    rw [getBuildIdLoop]
    by_cases hptr : ptr < contents.length
    · rw [if_pos hptr, ha, hd, ht]
      dsimp only
      rw [if_pos ⟨rfl, rfl⟩]
      cases hname : strcmpIs contents gnu (ptr + 12) with
      | none =>
        rw [walks_zero (by simp [hname])]
        cases e with
        | none => simp [toBeFound, Stops, hptr]
        | some desc => simp [toBeFound, Stops, hname]
      | some isGnu =>
        cases isGnu with
        | true =>
          rw [walks_zero (by simp [hname])]
          have hsize : ptr + 12 + 4 = ptr + 16 := rfl
          dsimp only
          rw [hsize]
          cases e with
          | none =>
            split_ifs <;> simp [toBeFound, Stops, hptr]
          | some desc =>
            split_ifs with hfits
            · simp [toBeFound, Stops, hptr, hname, hfits]
            · simp only [toBeFound, Stops, hptr, hname, true_and, reduceCtorEq, false_iff]
              exact fun h => hfits ⟨h.1, h.2.1⟩
        | false =>
          have hnext : ptr + 12 + (4 + d) % 2 ^ 32 = ptr + stride d := by rw [stride, Nat.add_assoc]
          dsimp only
          rw [walks_succ hptr hname, hnext]
          exact ih _ (by rw [stride]; omega) _ rfl
    · rw [if_neg hptr, walks_zero (by simp [hptr])]
      cases e with
      | none => simp [toBeFound, Stops, Nat.not_lt.mp hptr]
      | some desc => simp [toBeFound, Stops, hptr]

theorem strcmpIs_text (front s rest : List UInt8) : strcmpIs (front ++ (s ++ rest)) s front.length = some true := by
  induction s generalizing front with
  | nil => rfl
  | cons c s ih =>
    have hfirst : (front ++ (c :: s ++ rest))[front.length]? = some c := by simp
    have hrest := ih (front ++ [c])
    rw [List.length_append, List.length_singleton, List.append_assoc, List.singleton_append] at hrest
    rw [strcmpIs, hfirst]
    dsimp only
    rw [if_pos rfl, List.cons_append]
    exact hrest

/-- A first note that is the build id has the name behind its header, and behind that the descriptor. -/
theorem encodeNotes_buildId (order : ByteOrder.Order) (n : Note) (notes : List Note) (h : n.IsBuildId) :
    ∃ header : List UInt8, header.length = 12 ∧
      encodeNotes order (n :: notes) = header ++ (gnu ++ (n.desc ++ (n.descPad ++ encodeNotes order notes))) := by
  have hpad : n.namePad = [] := by
    have haligned := n.nameAligned
    rw [h.2] at haligned
    have hfour : gnu.length = 4 := rfl
    exact List.length_eq_zero_iff.mp (by omega)
  have hheader : ∀ v, (order.encode 4 v).length = 4 := ByteOrder.encode_length order 4
  refine ⟨order.encode 4 n.name.length ++ (order.encode 4 n.desc.length ++ order.encode 4 n.type), ?_, ?_⟩
  · rw [List.length_append, List.length_append, hheader, hheader, hheader]
  · show n.encode order ++ encodeNotes order notes = _
    rw [Note.encode, hpad, h.2]
    simp only [List.append_assoc, List.nil_append]

theorem strcmpIs_first (order : ByteOrder.Order) (n : Note) (notes : List Note) (h : n.IsBuildId) :
    strcmpIs (encodeNotes order (n :: notes)) gnu (0 + 12) = some true := by
  obtain ⟨header, hlen, htext⟩ := encodeNotes_buildId order n notes h
  rw [htext, Nat.zero_add, ← hlen]
  exact strcmpIs_text header gnu _

theorem stops_first (order : ByteOrder.Order) (n : Note) (notes : List Note) (h : n.IsBuildId) :
    Stops (encodeNotes order (n :: notes)) n.desc.length 0 (some n.desc) ↔ n.desc.length ≤ 64 := by
  obtain ⟨header, hheader, htext⟩ := encodeNotes_buildId order n notes h
  have hname := strcmpIs_first order n notes h
  have hlen := congrArg List.length htext
  rw [List.length_append, List.length_append, List.length_append, hheader, show gnu.length = 4 from rfl] at hlen
  have hdesc : (encodeNotes order (n :: notes)).drop (0 + 16) = n.desc ++ (n.descPad ++ encodeNotes order notes) := by
    rw [htext, ← List.append_assoc header]
    exact List.drop_left' (by rw [List.length_append, hheader]; rfl)
  rw [Stops, hdesc, List.take_left' rfl, hname]
  constructor
  · rintro ⟨-, -, -, hsize, -⟩
    exact hsize
  · intro hsize
    exact ⟨by omega, rfl, by omega, hsize, rfl⟩

/-- When the first build id is found: the first header decides, and the places a stride apart where it is that of a
build id under another name. -/
def LookupRight (order : ByteOrder.Order) : List Note → Prop
  | [] => True
  | n :: notes =>
    if n.IsBuildId then n.desc.length ≤ 64
    else if n.type = 3 ∧ n.name.length = 4 then
      Walks (encodeNotes order (n :: notes)) n.desc.length 0 (firstBuildId (n :: notes))
    else ∀ m ∈ n :: notes, ¬m.IsBuildId

theorem firstBuildId_none_iff (notes : List Note) : firstBuildId notes = none ↔ ∀ m ∈ notes, ¬m.IsBuildId := by
  rw [firstBuildId, Option.map_eq_none_iff, List.find?_eq_none]
  simp

theorem getBuildIdLoop_iff (order : ByteOrder.Order) (notes : List Note) :
    getBuildIdLoop order (encodeNotes order notes) 0 = toBeFound (firstBuildId notes) ↔ LookupRight order notes := by
  cases notes with
  | nil =>
    rw [getBuildIdLoop]
    exact iff_of_true rfl trivial
  | cons n notes =>
    obtain ⟨ha, hd, ht⟩ := header_encodeNotes order n notes
    rw [LookupRight]
    by_cases hfirst : n.IsBuildId
    · have hfound : firstBuildId (n :: notes) = some n.desc := by simp [firstBuildId, hfirst]
      have hname := strcmpIs_first order n notes hfirst
      have ha : bfdGet32 order (encodeNotes order (n :: notes)) 0 = some 4 := by
        rw [ha, hfirst.2]
        rfl
      rw [hfirst.1] at ht
      rw [if_pos hfirst, hfound, getBuildIdLoop_walks ha hd ht, walks_zero, stops_first order n notes hfirst]
      rintro ⟨-, hdiffers⟩
      rw [hname] at hdiffers
      cases hdiffers
    · rw [if_neg hfirst]
      by_cases hheader : n.type = 3 ∧ n.name.length = 4
      · rw [hheader.2] at ha
        rw [hheader.1] at ht
        rw [if_pos hheader]
        exact getBuildIdLoop_walks ha hd ht 0 _
      · rw [if_neg hheader, getBuildIdLoop_other ha hd ht hheader, ← firstBuildId_none_iff]
        cases firstBuildId (n :: notes) with
        | none => simp [toBeFound]
        | some desc => simp [toBeFound]

/-- The build id of a section of notes is found just when the first note leads to it. -/
theorem getBuildId_iff (ibfd : Bfd) (notes : List Note)
    (hsection : ibfd.buildIdSection = some (some (encodeNotes ibfd.order notes))) :
    getBuildId ibfd = toBeFound (firstBuildId notes) ↔ LookupRight ibfd.order notes := by
  rw [getBuildId, hsection]
  exact getBuildIdLoop_iff ibfd.order notes

/-- A note with four bytes, under the name `GNU`. -/
def gnuNote (type : Nat) (a b c d : UInt8) (h : type < 2 ^ 32) : Note where
  type := type
  name := gnu
  desc := [a, b, c, d]
  namePad := []
  descPad := []
  type_lt := h
  name_lt := by decide
  desc_lt := by simp
  nameAligned := by decide
  descAligned := by simp

/-- A binary whose only section has these notes. -/
def notesBfd (notes : List Note) : Bfd where
  order := .little
  sections := fun name => if name = ".note.gnu.build-id" then some (some (encodeNotes .little notes)) else none

/-- A note of the same type and size under another name. -/
def otherNote : Note where
  type := 3
  name := [65, 66, 67, 0]
  desc := [9, 9, 9, 9]
  namePad := []
  descPad := []
  type_lt := by decide
  name_lt := by decide
  desc_lt := by simp
  nameAligned := by decide
  descAligned := by simp

/-- The build id behind another note, and before a third one. -/
def threeNotes : List Note := [otherNote, gnuNote 3 1 2 3 4 (by decide), gnuNote 3 5 6 7 8 (by decide)]

theorem getBuildId_one : getBuildId (notesBfd threeNotes) = .found [1, 2, 3, 4] := by
  have hright : LookupRight .little threeNotes := by
    rw [threeNotes, LookupRight, if_neg (by decide), if_pos ⟨rfl, rfl⟩]
    refine ⟨1, ?_, ?_⟩
    · intro j hj
      rw [Nat.lt_one_iff.mp hj]
      decide
    · have hid : firstBuildId threeNotes = some [1, 2, 3, 4] := by decide
      rw [← threeNotes, hid]
      unfold Stops
      decide
  have hfound := (getBuildId_iff (notesBfd threeNotes) threeNotes rfl).mpr hright
  rw [hfound]
  rfl

/-- The ABI tag in front hides the build id. -/
theorem getBuildId_second : ∃ (ibfd : Bfd) (notes : List Note),
    ibfd.buildIdSection = some (some (encodeNotes ibfd.order notes)) ∧ getBuildId ibfd = .missing ∧
      toBeFound (firstBuildId notes) ≠ .missing :=
  ⟨notesBfd [gnuNote 1 0 0 0 0 (by decide), gnuNote 3 1 2 3 4 (by decide)], _, rfl, by decide +kernel, by decide⟩

end Oprofile.Libutilpp
