import DeflateHeader.Block.Kind

/-!
# Errors

Three causes end an operation: the input is too short, the output is too small, or the input is
invalid in a way that `InvalidInput` names. `Error.message` is the one place for their wording.

A fourth constructor, `fault`, stands for a broken internal contract: an index outside its
array, more bits asked for than are cached, or a field wider than 32 bits. No input of the header
codec leads to it; it is there so that this can be said.
-/

namespace DeflateHeader

/-- What is wrong with the bytes around a compressed stream. -/
inductive ContainerFlaw
  | zlibCheck
  | zlibMethod
  | zlibDictionary
  | gzipMagic
  | gzipMethod
  | gzipReserved
  deriving DecidableEq, Repr

/-- The two ways to use a set of tables. -/
inductive Direction
  | decode
  | encode
  deriving DecidableEq, Repr

/-- What is wrong with an invalid input. -/
inductive InvalidInput
  /-- More codes of one length than the shorter codes leave room for. -/
  | oversubscribed (length count : Nat)
  | codeLengthTooLong (length : Nat)
  | alphabetSize (litLen distance codes : Nat)
  | headerField (value width : Nat)
  | paddingNibble (nibble : Nat)
  | repeatWithoutPrevious
  | unknownCode
  | invalidSymbol (symbol : Nat)
  | invalidToken (byte : Nat)
  | unusedSymbol (symbol : Nat)
  | trailingBytes (consumed length : Nat)
  | invalidBlockType (bits : Nat)
  | notDynamicBlock (found : BlockKind)
  | invalidContainer (flaw : ContainerFlaw)
  | tablesNotLoaded (direction : Direction)
  deriving DecidableEq, Repr

/-- Which internal contract was broken. -/
inductive Fault
  | wideField
  | uncachedBits
  | outOfRange
  deriving DecidableEq, Repr

/-- Why an operation ended without a result. -/
inductive Error
  | insufficientInput
  | insufficientOutput
  | invalid (detail : InvalidInput)
  | fault (cause : Fault)
  deriving DecidableEq, Repr

namespace ContainerFlaw

/-- The wording of a flaw. -/
def message : ContainerFlaw → String
  | zlibCheck => "zlib header check failed"
  | zlibMethod => "zlib method is not deflate"
  | zlibDictionary => "zlib preset dictionary"
  | gzipMagic => "bad gzip magic"
  | gzipMethod => "gzip method is not deflate"
  | gzipReserved => "reserved gzip flags set"

end ContainerFlaw

namespace Direction

/-- The name under which a direction is reported. -/
def name : Direction → String
  | decode => "decode"
  | encode => "encode"

end Direction

namespace InvalidInput

/-- The wording of each detail; a nibble is written in hexadecimal. -/
def message : InvalidInput → String
  | oversubscribed length count =>
    s!"oversubscribed code lengths: {count} codes of length {length}"
  | codeLengthTooLong length => s!"code length {length} exceeds the 15-bit maximum"
  | alphabetSize litLen distance codes =>
    s!"alphabet sizes out of range: {litLen} lit/len, {distance} distance, {codes} code lengths"
  | headerField value width => s!"header field {value} does not fit in {width} bits"
  | paddingNibble nibble =>
    let digits := String.ofList (Nat.toDigits 16 nibble)
    s!"non-zero padding nibble 0x{digits} after the last code length"
  | repeatWithoutPrevious => "repeat of previous code length at the start of an alphabet"
  | unknownCode => "no Huffman code matches the input bits"
  | invalidSymbol symbol => s!"invalid code-length symbol {symbol}"
  | invalidToken byte => s!"invalid run-length token {byte}"
  | unusedSymbol symbol => s!"symbol {symbol} has no Huffman code"
  | trailingBytes consumed length => s!"header consumed {consumed} of {length} puff bytes"
  | invalidBlockType bits => s!"reserved block type {bits}"
  | notDynamicBlock found =>
    let kind := found.name
    s!"expected a dynamic block, found {kind}"
  | invalidContainer flaw =>
    let reason := flaw.message
    s!"invalid container: {reason}"
  | tablesNotLoaded direction =>
    let name := direction.name
    s!"no {name} tables are loaded"

end InvalidInput

namespace Fault

/-- The wording of a broken contract. -/
def message : Fault → String
  | wideField => "field wider than 32 bits"
  | uncachedBits => "bits used before they were cached"
  | outOfRange => "index out of range"

end Fault

namespace Error

/-- The wording of an error, the same wherever it arises. -/
def message : Error → String
  | insufficientInput => "insufficient input"
  | insufficientOutput => "insufficient output"
  | invalid detail =>
    let text := detail.message
    s!"invalid input: {text}"
  | fault cause =>
    let text := cause.message
    s!"internal fault: {text}"

/-- Whether the input is to blame, as opposed to a lack of input or room. -/
def isInvalidInput : Error → Bool
  | invalid _ => true
  | _ => false

end Error
end DeflateHeader
