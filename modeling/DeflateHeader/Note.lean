import DeflateHeader.AlphabetSizes

/-!
# Notes on the progress of the codec

What the codec remarks while it works. A warning is of interest to everyone, a detail only to
those who ask for much.
-/

namespace DeflateHeader

/-- How important a note is. -/
inductive Severity
  | warning
  | detail
  deriving DecidableEq, Repr

/-- A remark of the codec. -/
inductive Note
  | noLengths
  | sizes (sizes : AlphabetSizes)
  | decoded (puffSize litLenBits distanceBits : Nat)
  | encoded (bits : Nat)
  | fixedBuilt (litLenBits distanceBits : Nat)
  | puffed (bits puffSize : Nat)
  | huffed (puffSize bits : Nat)
  | mismatch (bitsRead bitsWritten : Nat)
  deriving DecidableEq, Repr

namespace Note

/-- Only the lack of any code is a warning. -/
def severity : Note → Severity
  | noLengths => .warning
  | _ => .detail

/-- The wording of a note. -/
def message : Note → String
  | noLengths => "no non-zero lengths in a Huffman code length array"
  | sizes ⟨litLen, distance, codeLength⟩ =>
    s!"dynamic header: {litLen} lit/len, {distance} distance, {codeLength} code-length codes"
  | decoded puffSize litLenBits distanceBits =>
    s!"dynamic header decoded: {puffSize} puff bytes, lit/len max_bits {litLenBits}, "
      ++ s!"distance max_bits {distanceBits}"
  | encoded bits => s!"dynamic header encoded: {bits} bits"
  | fixedBuilt litLenBits distanceBits =>
    s!"fixed tables built: lit/len max_bits {litLenBits}, distance max_bits {distanceBits}"
  | puffed bits puffSize => s!"puffed {bits} header bits into {puffSize} bytes"
  | huffed puffSize bits => s!"huffed {puffSize} puff bytes into {bits} header bits"
  | mismatch bitsRead bitsWritten =>
    s!"header mismatch: {bitsRead} bits read, {bitsWritten} bits written"

end Note
end DeflateHeader
