import DeflateHeader.Bits.Writer

/-!
# Block headers

A block starts with one bit that marks the last block of a stream and two bits for its kind.
-/

namespace DeflateHeader

/-- The three bits at the start of a block. -/
structure BlockHeader where
  isFinal : Bool
  kind : BlockKind
  deriving DecidableEq, Repr

namespace BlockKind

/-- The kind that a field stands for, or the reason why there is none. -/
def ofBits (bits : Nat) : Except Error BlockKind :=
  match ofBits? bits with
  | some kind => .ok kind
  | none => .error (.invalid (.invalidBlockType bits))

end BlockKind

namespace BlockHeader

/-- Reads a block header. The three bits are consumed even if the kind is reserved. -/
def read : EStateM Error BitReader BlockHeader := do
  BitReader.ensure 3
  let flag ← BitReader.peek 1
  BitReader.drop 1
  let bits ← BitReader.peek 2
  BitReader.drop 2
  match BlockKind.ofBits bits with
  | .ok kind => return ⟨flag == 1, kind⟩
  | .error e => throw e

/-- Writes a block header as two fields. -/
def write (h : BlockHeader) : EStateM Error BitWriter Unit := do
  BitWriter.put 1 h.isFinal.toNat
  BitWriter.put 2 h.kind.bits

end BlockHeader
end DeflateHeader
