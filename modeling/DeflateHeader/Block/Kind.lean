/-!
# Kinds of DEFLATE blocks

The two bits after the final flag of a block header say how the block is compressed. Three of
the four values are in use.
-/

namespace DeflateHeader

/-- How a block is compressed. -/
inductive BlockKind
  | uncompressed
  | fixed
  | dynamic
  deriving DecidableEq, Repr

namespace BlockKind

/-- The name under which a kind is reported. -/
def name : BlockKind → String
  | uncompressed => "Uncompressed"
  | fixed => "Fixed"
  | dynamic => "Dynamic"

/-- The two-bit field that stands for a kind. -/
def bits : BlockKind → Nat
  | uncompressed => 0
  | fixed => 1
  | dynamic => 2

/-- The kind that a two-bit field stands for; the value 3 is reserved. -/
def ofBits? : Nat → Option BlockKind
  | 0 => some uncompressed
  | 1 => some fixed
  | 2 => some dynamic
  | _ => none

@[simp] theorem ofBits?_bits (k : BlockKind) : ofBits? k.bits = some k := by cases k <;> rfl

end BlockKind
end DeflateHeader
