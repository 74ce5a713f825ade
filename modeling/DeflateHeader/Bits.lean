/-!
# Bit strings, least significant bit first

DEFLATE numbers the bits of a byte from the least significant one. A bit string is a
`List Bool` in stream order; `ofNat` and `toNat` convert numbers of a fixed width, `ofBytes`
lists the bits of a byte string.
-/

namespace DeflateHeader.Bits

/-- The `n` low bits of `v`, least significant first. -/
def ofNat : Nat → Nat → List Bool
  | 0, _ => []
  | n + 1, v => v.testBit 0 :: ofNat n (v / 2)

/-- The number whose bits, least significant first, are the given ones. -/
def toNat : List Bool → Nat
  | [] => 0
  | b :: bs => b.toNat + 2 * toNat bs

/-- The bits of a byte string in stream order. -/
def ofBytes (bytes : List UInt8) : List Bool :=
  bytes.flatMap fun b => ofNat 8 b.toNat

@[simp] theorem length_ofNat (n v : Nat) : (ofNat n v).length = n := by
  induction n generalizing v with
  | zero => rfl
  | succ n ih => simp [ofNat, ih]

@[simp] theorem length_ofBytes (bytes : List UInt8) :
    (ofBytes bytes).length = 8 * bytes.length := by
  induction bytes with
  | nil => rfl
  | cons b bs ih =>
    have h : ofBytes (b :: bs) = ofNat 8 b.toNat ++ ofBytes bs := by simp [ofBytes]
    rw [h, List.length_append, ih, length_ofNat, List.length_cons]
    omega

end DeflateHeader.Bits
