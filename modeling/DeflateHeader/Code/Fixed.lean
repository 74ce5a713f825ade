import DeflateHeader.Code.Canonical

/-!
# Alphabets

The sizes of the three alphabets of a DEFLATE block, and the code lengths of the fixed code.
-/

namespace DeflateHeader

/-- Literal/length symbols of the fixed code, two of which never occur. -/
def fixedLitLenCount : Nat := 288

/-- Literal/length symbols that a dynamic header may describe. -/
def maxLitLenCount : Nat := 286

/-- Distance symbols. -/
def maxDistanceCount : Nat := 30

/-- Symbols of the code-length alphabet. -/
def codeLengthCount : Nat := 19

/-- The longest code of the code-length alphabet, whose lengths are 3-bit fields. -/
def maxCodeLengthBits : Nat := 7

/-- Literal/length code lengths of the fixed code: 8 bits up to 143, 9 up to 255, 7 up to 279
and 8 for the rest. -/
def fixedLitLenLengths : Lengths :=
  List.replicate 144 8 ++ List.replicate 112 9 ++ List.replicate 24 7 ++ List.replicate 8 8

/-- Distance code lengths of the fixed code. -/
def fixedDistanceLengths : Lengths := List.replicate maxDistanceCount 5

theorem length_fixedLitLenLengths : fixedLitLenLengths.length = fixedLitLenCount := by
  simp only [fixedLitLenLengths, List.length_append, List.length_replicate]
  rfl

end DeflateHeader
