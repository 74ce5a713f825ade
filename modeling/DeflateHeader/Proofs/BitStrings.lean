import DeflateHeader.Code.Reverse
import Mathlib.Algebra.Group.Nat.Defs

/-!
# Laws of bit strings

`ofNat` and `toNat` are inverse to each other on numbers that fit the width (`toNat_ofNat`,
`ofNat_toNat`), and the low bits of a number stand before the others (`ofNat_add`). `bitReverse`
turns a field around (`ofNat_bitReverse`).
-/

namespace DeflateHeader

namespace Bits

/-! ## Numbers -/

@[simp] theorem ofNat_zero (v : Nat) : ofNat 0 v = [] := rfl

theorem ofNat_succ (n v : Nat) : ofNat (n + 1) v = v.testBit 0 :: ofNat n (v / 2) := rfl

theorem toNat_testBit_zero (v : Nat) : (v.testBit 0).toNat = v % 2 := by
  rw [Nat.testBit_zero]
  rcases Nat.mod_two_eq_zero_or_one v with h | h <;> simp [h]

theorem toNat_ofNat (n v : Nat) : toNat (ofNat n v) = v % 2 ^ n := by
  induction n generalizing v with
  | zero => simp [toNat, Nat.mod_one]
  | succ n ih =>
    rw [ofNat_succ, toNat, ih, toNat_testBit_zero, Nat.pow_succ, Nat.mul_comm (2 ^ n), Nat.mod_mul]

theorem toNat_lt (bs : List Bool) : toNat bs < 2 ^ bs.length := by
  induction bs with
  | nil => simp [toNat]
  | cons b bs ih =>
    have hb : b.toNat ≤ 1 := Bool.toNat_le b
    rw [toNat, List.length_cons, Nat.pow_succ]
    omega

@[simp] theorem ofNat_toNat (bs : List Bool) : ofNat bs.length (toNat bs) = bs := by
  induction bs with
  | nil => rfl
  | cons b bs ih =>
    have hb : b.toNat ≤ 1 := Bool.toNat_le b
    have hd : (b.toNat + 2 * toNat bs) / 2 = toNat bs := by omega
    rw [List.length_cons, ofNat_succ, toNat, hd, ih, Nat.testBit_zero]
    cases b <;> simp

theorem ofNat_toNat_of_length {n : Nat} {bs : List Bool} (h : bs.length = n) :
    ofNat n (toNat bs) = bs := by
  subst h; exact ofNat_toNat bs

/-- Bit strings of one length are equal if their numbers are. -/
theorem eq_of_toNat_eq {as bs : List Bool} (hl : as.length = bs.length)
    (h : toNat as = toNat bs) : as = bs := by
  rw [← ofNat_toNat as, ← ofNat_toNat bs, hl, h]

@[simp] theorem ofNat_mod (n v : Nat) : ofNat n (v % 2 ^ n) = ofNat n v :=
  eq_of_toNat_eq (by simp) (by simp [toNat_ofNat])

theorem ofNat_inj {n v w : Nat} : ofNat n v = ofNat n w ↔ v % 2 ^ n = w % 2 ^ n := by
  constructor
  · intro h; rw [← toNat_ofNat, h, toNat_ofNat]
  · intro h; rw [← ofNat_mod, h, ofNat_mod]

/-- The low `m` bits stand before the others. -/
theorem ofNat_add (m n v : Nat) : ofNat (m + n) v = ofNat m v ++ ofNat n (v / 2 ^ m) := by
  induction m generalizing v with
  | zero => simp
  | succ m ih =>
    rw [Nat.add_right_comm, ofNat_succ, ih, ofNat_succ, Nat.div_div_eq_div_mul, ← Nat.pow_add_one']
    rfl

/-- A number above `m` bits that are in use. -/
theorem ofNat_add_of_lt {m n a : Nat} (b : Nat) (h : a < 2 ^ m) :
    ofNat (m + n) (a + 2 ^ m * b) = ofNat m a ++ ofNat n b := by
  have hp : 0 < 2 ^ m := Nat.two_pow_pos m
  rw [ofNat_add, Nat.add_mul_div_left _ _ hp, Nat.div_eq_of_lt h, Nat.zero_add,
    ← ofNat_mod m (a + _), Nat.add_mul_mod_self_left, ofNat_mod]

theorem ofNat_isPrefix {m n : Nat} (h : m ≤ n) (v : Nat) : ofNat m v <+: ofNat n v := by
  obtain ⟨k, rfl⟩ := Nat.exists_eq_add_of_le h
  exact ⟨_, (ofNat_add m k v).symm⟩

theorem ofNat_mod_of_le {m n : Nat} (h : m ≤ n) (v : Nat) : ofNat m (v % 2 ^ n) = ofNat m v := by
  rw [ofNat_inj, Nat.mod_mod_of_dvd _ (Nat.pow_dvd_pow 2 h)]

theorem take_ofNat {m n : Nat} (h : m ≤ n) (v : Nat) : (ofNat n v).take m = ofNat m v := by
  obtain ⟨k, rfl⟩ := Nat.exists_eq_add_of_le h
  rw [ofNat_add, List.take_append_of_le_length (by simp), List.take_of_length_le (by simp)]

theorem drop_ofNat {m n : Nat} (h : m ≤ n) (v : Nat) :
    (ofNat n v).drop m = ofNat (n - m) (v / 2 ^ m) := by
  obtain ⟨k, rfl⟩ := Nat.exists_eq_add_of_le h
  rw [ofNat_add, List.drop_append_of_le_length (by simp), List.drop_of_length_le (by simp)]
  simp

theorem toNat_take {n : Nat} {bs : List Bool} (h : n ≤ bs.length) :
    toNat (bs.take n) = toNat bs % 2 ^ n := by
  rw [← toNat_ofNat, ← take_ofNat h, ofNat_toNat]

theorem ofNat_eq_replicate (n : Nat) : ofNat n 0 = List.replicate n false := by
  induction n with
  | zero => rfl
  | succ n ih => rw [ofNat_succ, Nat.zero_div, ih]; rfl

/-! ## Bytes -/

@[simp] theorem ofBytes_nil : ofBytes [] = [] := rfl

@[simp] theorem ofBytes_cons (b : UInt8) (bs : List UInt8) :
    ofBytes (b :: bs) = ofNat 8 b.toNat ++ ofBytes bs := by
  simp [ofBytes]

@[simp] theorem ofBytes_append (as bs : List UInt8) :
    ofBytes (as ++ bs) = ofBytes as ++ ofBytes bs := by
  simp [ofBytes]

theorem take_ofBytes (n : Nat) (bs : List UInt8) :
    (ofBytes bs).take (8 * n) = ofBytes (bs.take n) := by
  induction n generalizing bs with
  | zero => simp
  | succ n ih =>
    cases bs with
    | nil => simp
    | cons b bs =>
      rw [ofBytes_cons, List.take_succ_cons, ofBytes_cons, List.take_append, length_ofNat, ← ih,
        List.take_of_length_le (by rw [length_ofNat]; omega)]
      congr 2

end Bits

/-! ## Reversal -/

theorem bitReverse_lt (v n : Nat) : bitReverse v n < 2 ^ n := by
  simpa [bitReverse] using Bits.toNat_lt (Bits.ofNat n v).reverse

@[simp] theorem ofNat_bitReverse (v n : Nat) :
    Bits.ofNat n (bitReverse v n) = (Bits.ofNat n v).reverse :=
  Bits.ofNat_toNat_of_length (by simp)

end DeflateHeader
