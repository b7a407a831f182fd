import Mathlib.Tactic.Linarith

/-! Byte-addressed memory with little-endian words, and files that grow by truncation. -/
namespace ByteMem

abbrev Bytes := Nat → UInt8

def get32 (m : Bytes) (a : Nat) : Nat :=
  (m a).toNat + 2 ^ 8 * (m (a + 1)).toNat + 2 ^ 16 * (m (a + 2)).toNat +
    2 ^ 24 * (m (a + 3)).toNat

def put32 (m : Bytes) (a v : Nat) : Bytes := fun x =>
  if x = a then UInt8.ofNat v
  else if x = a + 1 then UInt8.ofNat (v / 2 ^ 8)
  else if x = a + 2 then UInt8.ofNat (v / 2 ^ 16)
  else if x = a + 3 then UInt8.ofNat (v / 2 ^ 24)
  else m x

def get64 (m : Bytes) (a : Nat) : Nat := get32 m a + 2 ^ 32 * get32 m (a + 4)

def put64 (m : Bytes) (a v : Nat) : Bytes := put32 (put32 m a v) (a + 4) (v / 2 ^ 32)

variable {m m' : Bytes} {a b v : Nat}

theorem get32_lt (m : Bytes) (a : Nat) : get32 m a < 2 ^ 32 := by
  have h0 := (m a).toNat_lt
  have h1 := (m (a + 1)).toNat_lt
  have h2 := (m (a + 2)).toNat_lt
  have h3 := (m (a + 3)).toNat_lt
  unfold get32
  omega

theorem get64_lt (m : Bytes) (a : Nat) : get64 m a < 2 ^ 64 := by
  have h0 := get32_lt m a
  have h1 := get32_lt m (a + 4)
  unfold get64
  omega

@[simp] theorem get32_put32_self : get32 (put32 m a v) a = v % 2 ^ 32 := by
  simp [get32, put32]
  omega

theorem put32_byte_ne {x : Nat} (h : x < a ∨ a + 4 ≤ x) : put32 m a v x = m x := by
  simp only [put32]
  rw [if_neg (by omega), if_neg (by omega), if_neg (by omega), if_neg (by omega)]

/-- A word that does not share a byte with the written one keeps its value. -/
theorem get32_put32_disjoint (h : a + 4 ≤ b ∨ b + 4 ≤ a) :
    get32 (put32 m a v) b = get32 m b := by
  have hb : ∀ i, i < 4 → put32 m a v (b + i) = m (b + i) :=
    fun i hi => put32_byte_ne (by omega)
  have hb0 := hb 0 (by omega)
  simp only [Nat.add_zero] at hb0
  simp [get32, hb0, hb 1, hb 2, hb 3]

/-- Words only depend on the bytes they cover. -/
theorem get32_congr (h : ∀ x, a ≤ x → x < a + 4 → m x = m' x) : get32 m a = get32 m' a := by
  simp only [get32, h a (by omega) (by omega), h (a + 1) (by omega) (by omega),
    h (a + 2) (by omega) (by omega), h (a + 3) (by omega) (by omega)]

theorem get32_eq_zero (h : ∀ x, a ≤ x → x < a + 4 → m x = 0) : get32 m a = 0 := by
  simp [get32, h a, h (a + 1), h (a + 2), h (a + 3)]

@[simp] theorem get64_put64_self : get64 (put64 m a v) a = v % 2 ^ 64 := by
  have hlow : get32 (put64 m a v) a = v % 2 ^ 32 := by
    rw [put64, get32_put32_disjoint (by omega), get32_put32_self]
  have hhigh : get32 (put64 m a v) (a + 4) = v / 2 ^ 32 % 2 ^ 32 := by
    rw [put64, get32_put32_self]
  rw [get64, hlow, hhigh]
  omega

theorem get32_put64_disjoint (h : a + 8 ≤ b ∨ b + 4 ≤ a) :
    get32 (put64 m a v) b = get32 m b := by
  rw [put64, get32_put32_disjoint (by omega), get32_put32_disjoint (by omega)]

theorem get64_put32_disjoint (h : a + 4 ≤ b ∨ b + 8 ≤ a) :
    get64 (put32 m a v) b = get64 m b := by
  rw [get64, get32_put32_disjoint (by omega), get32_put32_disjoint (by omega), get64]

theorem get64_put64_disjoint (h : a + 8 ≤ b ∨ b + 8 ≤ a) :
    get64 (put64 m a v) b = get64 m b := by
  rw [get64, get32_put64_disjoint (by omega), get32_put64_disjoint (by omega), get64]

theorem get64_congr (h : ∀ x, a ≤ x → x < a + 8 → m x = m' x) : get64 m a = get64 m' a := by
  rw [get64, get64, get32_congr (fun x h1 h2 => h x h1 (by omega)),
    get32_congr (fun x h1 h2 => h x (by omega) (by omega))]

/-- Copying a block of bytes to an address. -/
def store (m : Bytes) (a : Nat) (bs : List UInt8) : Bytes := fun x =>
  if a ≤ x then bs.getD (x - a) (m x) else m x

/-- The block of `n` bytes at an address. -/
def load (m : Bytes) (a n : Nat) : List UInt8 := (List.range n).map fun i => m (a + i)

@[simp] theorem load_length (m : Bytes) (a n : Nat) : (load m a n).length = n := by simp [load]

theorem store_byte {bs : List UInt8} {i : Nat} (hi : i < bs.length) :
    store m a bs (a + i) = bs[i] := by
  simp [store, hi]

theorem store_byte_ne {bs : List UInt8} {x : Nat} (h : x < a ∨ a + bs.length ≤ x) :
    store m a bs x = m x := by
  unfold store
  split_ifs with ha
  · have hle : bs.length ≤ x - a := by omega
    simp [hle]
  · rfl

theorem load_store (m : Bytes) (a : Nat) (bs : List UInt8) :
    load (store m a bs) a bs.length = bs := by
  apply List.ext_getElem
  · simp
  · intro i hi hi'
    simp [load, store_byte hi']

/-- A block written in two parts, the second right behind the first. -/
theorem store_append (m : Bytes) (a : Nat) (bs cs : List UInt8) :
    store (store m a bs) (a + bs.length) cs = store m a (bs ++ cs) := by
  funext x
  by_cases h1 : x < a
  · rw [store_byte_ne (by omega), store_byte_ne (by omega), store_byte_ne (by omega)]
  · obtain ⟨i, rfl⟩ := Nat.exists_eq_add_of_le (Nat.le_of_not_lt h1)
    by_cases h2 : i < bs.length
    · rw [store_byte_ne (by omega), store_byte h2, store_byte (by simp; omega),
        List.getElem_append_left h2]
    · by_cases h3 : i < bs.length + cs.length
      · have hlen : i < (bs ++ cs).length := by simpa using h3
        rw [store_byte hlen, List.getElem_append_right (by omega)]
        have hlt : i - bs.length < cs.length := by omega
        have hst := store_byte (m := store m a bs) (a := a + bs.length) hlt
        rw [show a + bs.length + (i - bs.length) = a + i by omega] at hst
        exact hst
      · rw [store_byte_ne (by omega), store_byte_ne (by omega),
          store_byte_ne (by simp; omega)]

theorem load_congr {n : Nat} (h : ∀ x, a ≤ x → x < a + n → m x = m' x) :
    load m a n = load m' a n := by
  apply List.map_congr_left
  intro i hi
  rw [List.mem_range] at hi
  exact h _ (by omega) (by omega)

/-- A file is its length and its bytes; bytes past the end are never read back as data. -/
structure File where
  size : Nat
  byte : Bytes

def File.empty : File := ⟨0, fun _ => 0⟩

/-- Changing the length keeps the common part and zero-fills what is new. -/
def File.truncate (f : File) (n : Nat) : File :=
  ⟨n, fun x => if x < f.size ∧ x < n then f.byte x else 0⟩

@[simp] theorem File.truncate_size (f : File) (n : Nat) : (f.truncate n).size = n := rfl

theorem File.truncate_byte_of_lt {f : File} {n x : Nat} (h : x < f.size) (hn : x < n) :
    (f.truncate n).byte x = f.byte x := by
  simp [truncate, h, hn]

theorem File.truncate_byte_of_le {f : File} {n x : Nat} (h : f.size ≤ x) :
    (f.truncate n).byte x = 0 := by
  simp [truncate, Nat.not_lt.mpr h]

end ByteMem
