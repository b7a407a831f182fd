import Oprofile.Library.ByteMem

/-! Files written and read in blocks, and fixed-width record formats. -/
namespace Records

open ByteMem

/-- `write` at an offset, past the end too: what is skipped reads as zeros. -/
def pwrite (f : File) (pos : Nat) (bs : List UInt8) : File :=
  if bs = [] then f
  else ⟨max f.size (pos + bs.length), store (fun x => if x < f.size then f.byte x else 0) pos bs⟩

/-- `read` at an offset: it delivers less than asked only at the end of the file. -/
def pread (f : File) (pos n : Nat) : List UInt8 := load f.byte pos (min n (f.size - pos))

/-- The file contains the block at the offset. -/
def Holds (f : File) (pos : Nat) (bs : List UInt8) : Prop :=
  ∀ i, (hi : i < bs.length) → f.byte (pos + i) = bs[i] ∧ pos + i < f.size

variable {f : File} {pos q : Nat} {as bs cs : List UInt8}

theorem holds_nil (f : File) (pos : Nat) : Holds f pos [] := fun _ hi => (Nat.not_lt_zero _ hi).elim

theorem holds_pwrite (f : File) (pos : Nat) (bs : List UInt8) : Holds (pwrite f pos bs) pos bs := by
  intro i hi
  have hne : bs ≠ [] := List.ne_nil_of_length_pos (Nat.zero_lt_of_lt hi)
  simp only [pwrite, if_neg hne]
  exact ⟨store_byte hi, by omega⟩

/-- A block that the written one does not overlap stays. -/
theorem Holds.pwrite_disjoint (h : Holds f pos as)
    (hd : pos + as.length ≤ q ∨ q + bs.length ≤ pos) : Holds (pwrite f q bs) pos as := by
  intro i hi
  obtain ⟨hb, hs⟩ := h i hi
  unfold pwrite
  split_ifs with hne
  · exact ⟨hb, hs⟩
  · refine ⟨?_, Nat.lt_of_lt_of_le hs (Nat.le_max_left ..)⟩
    have hkeep : store (fun x => if x < f.size then f.byte x else 0) q bs (pos + i) = _ :=
      store_byte_ne (by omega)
    rw [if_pos hs] at hkeep
    exact hkeep.trans hb

/-- A block in two parts, one behind the other. -/
theorem holds_append : Holds f pos (as ++ bs) ↔ Holds f pos as ∧ Holds f (pos + as.length) bs := by
  constructor
  · refine fun h => ⟨fun i hi => ?_, fun i hi => ?_⟩
    · have hi' : i < (as ++ bs).length := by
        rw [List.length_append]
        omega
      have hh := h i hi'
      rwa [List.getElem_append_left hi] at hh
    · have hi' : as.length + i < (as ++ bs).length := by
        rw [List.length_append]
        omega
      have hh := h (as.length + i) hi'
      rw [List.getElem_append_right (Nat.le_add_right _ _)] at hh
      simpa [Nat.add_assoc] using hh
  · rintro ⟨ha, hb⟩ i hi
    by_cases hlt : i < as.length
    · rw [List.getElem_append_left hlt]
      exact ha i hlt
    · rw [List.length_append] at hi
      have hh := hb (i - as.length) (by omega)
      rw [List.getElem_append_right (by omega)]
      rw [show pos + as.length + (i - as.length) = pos + i by omega] at hh
      exact hh

/-- A block that the file contains is what is loaded. -/
theorem Holds.loaded (h : Holds f pos bs) : load f.byte pos bs.length = bs := by
  apply List.ext_getElem
  · simp
  · intro i hi hi'
    simpa [load] using (h i hi').1

theorem Holds.end_le (h : Holds f pos bs) (hne : 0 < bs.length) : pos + bs.length ≤ f.size := by
  have hlast := (h (bs.length - 1) (by omega)).2
  omega

/-- A block that is there is read back. -/
theorem Holds.pread (h : Holds f pos bs) : pread f pos bs.length = bs := by
  have hmin : min bs.length (f.size - pos) = bs.length := by
    rcases Nat.eq_zero_or_pos bs.length with h0 | hpos
    · omega
    · have hl := (h (bs.length - 1) (by omega)).2
      omega
  rw [Records.pread, hmin]
  apply List.ext_getElem
  · simp
  · intro i hi hi'
    simpa [load] using (h i hi').1

/-- A record format: every value takes `width` bytes and is decoded from them. -/
structure Format (α : Type) where
  width : Nat
  encode : α → List UInt8
  decode : List UInt8 → α
  length_encode : ∀ a, (encode a).length = width
  decode_encode : ∀ a bs, decode (encode a ++ bs) = a

attribute [simp] Format.length_encode Format.decode_encode

variable {α β γ : Type}

theorem Format.decode_encode_self (c : Format α) (a : α) : c.decode (c.encode a) = a := by
  have h := c.decode_encode a []
  rwa [List.append_nil] at h

/-- One field behind the other. -/
def Format.pair (c : Format α) (d : Format β) : Format (α × β) where
  width := c.width + d.width
  encode p := c.encode p.1 ++ d.encode p.2
  decode bs := (c.decode bs, d.decode (bs.drop c.width))
  length_encode p := by simp
  decode_encode p bs := by
    rw [List.append_assoc, c.decode_encode, List.drop_left' (c.length_encode p.1), d.decode_encode]

/-- The format of a structure with the same fields. -/
def Format.map (c : Format α) (mk : α → β) (fields : β → α) (h : ∀ b, mk (fields b) = b) :
    Format β where
  width := c.width
  encode b := c.encode (fields b)
  decode bs := mk (c.decode bs)
  length_encode b := c.length_encode _
  decode_encode b bs := by rw [c.decode_encode, h]

/-- A little-endian 64-bit word. -/
def u64 : Format UInt64 where
  width := 8
  encode v := load (put64 (fun _ => 0) 0 v.toNat) 0 8
  decode bs := UInt64.ofNat (get64 (fun i => bs.getD i 0) 0)
  length_encode v := load_length ..
  decode_encode v bs := by
    have hget : get64 (fun i => (load (put64 (fun _ => 0) 0 v.toNat) 0 8 ++ bs).getD i 0) 0 =
        get64 (put64 (fun _ => 0) 0 v.toNat) 0 := by
      apply get64_congr
      intro x _ hx
      rw [List.getD_eq_getElem?_getD, List.getElem?_append_left (by rw [load_length]; omega)]
      simp [load, hx]
    rw [hget, get64_put64_self, Nat.mod_eq_of_lt v.toNat_lt, UInt64.ofNat_toNat]

/-- A little-endian 32-bit word. -/
def u32 : Format UInt32 where
  width := 4
  encode v := load (put32 (fun _ => 0) 0 v.toNat) 0 4
  decode bs := UInt32.ofNat (get32 (fun i => bs.getD i 0) 0)
  length_encode v := load_length ..
  decode_encode v bs := by
    have hget : get32 (fun i => (load (put32 (fun _ => 0) 0 v.toNat) 0 4 ++ bs).getD i 0) 0 =
        get32 (put32 (fun _ => 0) 0 v.toNat) 0 := by
      apply get32_congr
      intro x _ hx
      rw [List.getD_eq_getElem?_getD, List.getElem?_append_left (by rw [load_length]; omega)]
      simp [load, hx]
    rw [hget, get32_put32_self, Nat.mod_eq_of_lt v.toNat_lt, UInt32.ofNat_toNat]

/-- A block of bytes of a fixed length. -/
def raw (n : Nat) : Format { bs : List UInt8 // bs.length = n } where
  width := n
  encode b := b.1
  decode bs := ⟨(List.range n).map (bs.getD · 0), by simp⟩
  length_encode b := b.2
  decode_encode b bs := by
    apply Subtype.ext
    apply List.ext_getElem
    · simp [b.2]
    · intro i _ hi
      simp [List.getElem?_append_left hi, hi]

/-- The format looks at no more bytes than its width. -/
def Format.Local (c : Format α) : Prop := ∀ as bs : List UInt8, c.width ≤ as.length → c.decode (as ++ bs) = c.decode as

theorem Format.Local.pair {c : Format α} {d : Format β} (hc : c.Local) (hd : d.Local) : (c.pair d).Local := by
  intro as bs hle
  have hwidth : c.width + d.width ≤ as.length := hle
  have hdrop : (as ++ bs).drop c.width = as.drop c.width ++ bs :=
    List.drop_append_of_le_length (Nat.le_trans (Nat.le_add_right _ _) hwidth)
  have hrest : d.width ≤ (as.drop c.width).length := by
    rw [List.length_drop]
    omega
  exact Prod.ext (hc as bs (by omega)) ((congrArg d.decode hdrop).trans (hd _ _ hrest))

theorem Format.Local.map {c : Format α} (hc : c.Local) (mk : α → β) (fields : β → α) (h : ∀ b, mk (fields b) = b) :
    (c.map mk fields h).Local := fun as bs hle => congrArg mk (hc as bs hle)

theorem u64_local : u64.Local := by
  intro as bs hle
  have hwidth : 8 ≤ as.length := hle
  apply congrArg UInt64.ofNat
  apply get64_congr
  intro x _ hx
  rw [List.getD_eq_getElem?_getD, List.getElem?_append_left (by omega), ← List.getD_eq_getElem?_getD]

theorem u32_local : u32.Local := by
  intro as bs hle
  have hwidth : 4 ≤ as.length := hle
  apply congrArg UInt32.ofNat
  apply get32_congr
  intro x _ hx
  rw [List.getD_eq_getElem?_getD, List.getElem?_append_left (by omega), ← List.getD_eq_getElem?_getD]

/-- An array of records. -/
def Format.encodeAll (c : Format α) (xs : List α) : List UInt8 := xs.flatMap c.encode

variable {c : Format α} {xs : List α}

@[simp] theorem Format.encodeAll_nil : c.encodeAll [] = [] := rfl

@[simp] theorem Format.encodeAll_cons (x : α) : c.encodeAll (x :: xs) = c.encode x ++ c.encodeAll xs :=
  rfl

@[simp] theorem Format.encodeAll_append (ys : List α) :
    c.encodeAll (xs ++ ys) = c.encodeAll xs ++ c.encodeAll ys := List.flatMap_append ..

@[simp] theorem Format.encodeAll_length : (c.encodeAll xs).length = xs.length * c.width := by
  induction xs with
  | nil => simp
  | cons x xs ih => simp [ih, Nat.succ_mul, Nat.add_comm]

end Records
