import Mathlib.Tactic.Ring
import Oprofile.Library.Records

/-! Numbers of any width in either byte order, and the shift loop that reads them. -/
namespace ByteOrder

open ByteMem Records

inductive Order
  | little
  | big
  deriving DecidableEq

/-- The `n` low bytes of a number, the least significant first. -/
def digits : Nat → Nat → List UInt8
  | 0, _ => []
  | n + 1, v => UInt8.ofNat v :: digits n (v / 256)

/-- The `n` bytes that a number takes in memory. -/
def Order.encode : Order → Nat → Nat → List UInt8
  | .little, n, v => digits n v
  | .big, n, v => (digits n v).reverse

/-- The bytes of a number from the most significant one down. -/
def Order.descending : Order → List UInt8 → List UInt8
  | .little, bs => bs.reverse
  | .big, bs => bs

/-- One round of the loop, on an unsigned type of `width` bytes. -/
def shiftIn (width targ : Nat) (b : UInt8) : Nat := (targ <<< 8 ||| b.toNat) % 2 ^ (8 * width)

/-- What the loop makes of a block of bytes. -/
def Order.gather (o : Order) (width : Nat) (bs : List UInt8) : Nat := (o.descending bs).foldl (shiftIn width) 0

/-- The number whose `m` bytes come first among the `m + n` bytes of `v`. -/
def Order.first : Order → Nat → Nat → Nat → Nat
  | .little, m, _, v => v % 256 ^ m
  | .big, _, n, v => v / 256 ^ n

variable {o : Order} {m n v w : Nat}

@[simp] theorem digits_length (n v : Nat) : (digits n v).length = n := by
  induction n generalizing v with
  | zero => rfl
  | succ n ih => rw [digits, List.length_cons, ih]

@[simp] theorem encode_length (o : Order) (n v : Nat) : (o.encode n v).length = n := by
  cases o with
  | little => exact digits_length n v
  | big => rw [Order.encode, List.length_reverse, digits_length]

theorem digits_add (m n v : Nat) : digits (m + n) v = digits m v ++ digits n (v / 256 ^ m) := by
  induction m generalizing v with
  | zero => rw [Nat.zero_add, Nat.pow_zero, Nat.div_one]; rfl
  | succ m ih =>
    rw [Nat.succ_add, digits, ih, digits, List.cons_append, Nat.div_div_eq_div_mul, Nat.pow_succ, Nat.mul_comm 256]

theorem digits_mod (n v : Nat) : digits n (v % 256 ^ n) = digits n v := by
  induction n generalizing v with
  | zero => rfl
  | succ n ih =>
    have hlow : v % 256 ^ (n + 1) % 256 = v % 256 := Nat.mod_mod_of_dvd v (Dvd.intro_left (256 ^ n) rfl)
    have hhigh : v % 256 ^ (n + 1) / 256 = v / 256 % 256 ^ n := by
      rw [Nat.pow_succ', Nat.mod_mul_right_div_self]
    have hbyte : UInt8.ofNat (v % 256 ^ (n + 1)) = UInt8.ofNat v := by
      apply UInt8.toNat.inj
      rw [UInt8.toNat_ofNat', UInt8.toNat_ofNat']
      exact hlow
    rw [digits, digits, hbyte, hhigh, ih]

theorem shiftIn_eq {targ : Nat} {b : UInt8} (h : targ * 256 + b.toNat < 2 ^ (8 * w)) :
    shiftIn w targ b = targ * 256 + b.toNat := by
  rw [shiftIn, ← Nat.shiftLeft_add_eq_or_of_lt b.toNat_lt, Nat.shiftLeft_eq]
  exact Nat.mod_eq_of_lt h

theorem shift_digits (h : n ≤ w) : (digits n v).reverse.foldl (shiftIn w) 0 = v % 256 ^ n := by
  rw [List.foldl_reverse]
  induction n generalizing v with
  | zero => rw [Nat.pow_zero, Nat.mod_one]; rfl
  | succ n ih =>
    have hbyte : (UInt8.ofNat v).toNat = v % 256 := UInt8.toNat_ofNat'
    have hsplit : v % 256 ^ (n + 1) = v / 256 % 256 ^ n * 256 + v % 256 := by
      rw [Nat.pow_succ', Nat.mod_mul, Nat.add_comm, Nat.mul_comm]
    have hlt : v % 256 ^ (n + 1) < 2 ^ (8 * w) := by
      apply Nat.lt_of_lt_of_le (Nat.mod_lt _ (Nat.pow_pos (by omega)))
      rw [Nat.pow_mul]
      exact Nat.pow_le_pow_right (by omega) h
    rw [digits, List.foldr_cons, ih (by omega), hsplit, ← hbyte]
    apply shiftIn_eq
    rwa [hbyte, ← hsplit]

/-- The loop reads the number back. -/
theorem gather_encode (h : n ≤ w) : o.gather w (o.encode n v) = v % 256 ^ n := by
  cases o with
  | little => exact shift_digits h
  | big => exact shift_digits h

/-- The first bytes of a number are the bytes of its low part or of its high part. -/
theorem holds_first {f : File} {pos : Nat} (h : Holds f pos (o.encode (m + n) v)) :
    Holds f pos (o.encode m (o.first m n v)) := by
  cases o with
  | little =>
    rw [Order.encode, digits_add, holds_append] at h
    rw [Order.encode, Order.first, digits_mod]
    exact h.1
  | big =>
    rw [Order.encode, Nat.add_comm, digits_add, List.reverse_append, holds_append] at h
    exact h.1

end ByteOrder
