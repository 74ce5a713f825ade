import DeflateHeader.Bits
import DeflateHeader.Block
import DeflateHeader.Codec.Decode
import DeflateHeader.Codec.Encode
import DeflateHeader.Container

/-!
# Whole streams

`Codec.puff` takes the first block header of a stream, which must be a dynamic one, and returns
its puff form. `Codec.huff` writes the block header that a puff buffer describes. `Codec.verify`
does one after the other and compares the bits.

The two size limits hold for every header: `puff` and `huff` never run out of room.
-/

namespace DeflateHeader

/-- The longest puff form: fields, packed lengths, and one token for each length. -/
def maxPuffSize : Nat :=
  3 + (codeLengthCount + 1) / 2 + maxLitLenCount + maxDistanceCount

/-- The longest block header in bits: the block header, the fields, the code-length lengths and
14 bits for each length. -/
def maxHeaderBits : Nat :=
  3 + 14 + codeLengthCount * 3 + (maxLitLenCount + maxDistanceCount) * 14

/-- A header in puff form, and where it was found. -/
structure Puffed where
  block : BlockHeader
  puff : List UInt8
  /-- Size of the block header and the dynamic header in the stream. -/
  bits : Nat
  /-- Bytes before the stream. -/
  containerSize : Nat
  deriving DecidableEq, Repr

/-- A header in stream form; the last byte is filled up with zeros. -/
structure Huffed where
  bytes : List UInt8
  bits : Nat
  deriving DecidableEq, Repr

/-- A header in puff form, and whether its stream form is the one that was read. -/
structure Verified where
  header : Puffed
  isSame : Bool
  deriving DecidableEq, Repr

namespace Bits

/-- Whether two byte strings agree in their first `n` bits, and have so many. -/
def agree (n : Nat) (a b : List UInt8) : Bool :=
  let needed := (n + 7) / 8
  needed ≤ a.length && needed ≤ b.length
    && (ofBytes (a.take needed)).take n == (ofBytes (b.take needed)).take n

end Bits

namespace Decoding

/-- Reads the header of a dynamic block, decodes the dynamic header behind it and returns the size
of its puff form. -/
def decodeBlock : EStateM Error Decoding (BlockHeader × Nat) := do
  let block ← onReader BlockHeader.read
  if block.kind ≠ .dynamic then throw (.invalid (.notDynamicBlock block.kind))
  let size ← decodeHeader
  return (block, size)

end Decoding

namespace Encoding

/-- Writes the header of a dynamic block and the dynamic header that a puff buffer describes, and
returns the number of bits and the bytes that hold them. -/
def encodeBlock (puff : List UInt8) (isFinal : Bool) :
    EStateM Error Encoding (Nat × List UInt8) := do
  onWriter (BlockHeader.write ⟨isFinal, .dynamic⟩)
  encodeHeader puff
  let bits := (← get).writer.bitCount
  let bytes ← onWriter BitWriter.finish
  return (bits, bytes)

end Encoding

namespace Codec

/-- Runs a decoder on a stream, with a zeroed buffer of `room` bytes. On failure only the codec is
kept of its state. -/
def decoding {α : Type} (stream : List UInt8) (room : Nat) (act : EStateM Error Decoding α) :
    EStateM Error Codec (α × Decoding) := fun c =>
  let start : Decoding := ⟨c, BitReader.ofBytes stream, ByteSink.ofBuffer (List.replicate room 0)⟩
  match act start with
  | .ok a s => .ok (a, s) s.codec
  | .error e s => .error e s.codec

/-- Runs an encoder with a zeroed buffer of `room` bytes. Only the codec is kept of its state. -/
def encoding {α : Type} (room : Nat) (act : EStateM Error Encoding α) : EStateM Error Codec α :=
  fun c =>
    match act ⟨c, BitWriter.ofBuffer (List.replicate room 0)⟩ with
    | .ok a s => .ok a s.codec
    | .error e s => .error e s.codec

/-- Turns the first block header of the stream in `data` into puff form. -/
def puff (data : List UInt8) (container : Container) : EStateM Error Codec Puffed := do
  match container.strip data with
  | .error e => throw e
  | .ok stream =>
    let ((block, size), s) ← decoding stream maxPuffSize Decoding.decodeBlock
    let bits := s.reader.consumed
    remark (.puffed bits size)
    return { block, puff := s.sink.buffer.take size, bits
             containerSize := data.length - stream.length }

/-- Writes the block header that a puff buffer describes. -/
def huff (puff : List UInt8) (isFinal : Bool) : EStateM Error Codec Huffed := do
  let (bits, bytes) ← encoding ((maxHeaderBits + 7) / 8) (Encoding.encodeBlock puff isFinal)
  remark (.huffed puff.length bits)
  return { bytes, bits }

/-- Turns the first block header of a stream into puff form and back, and compares the bits. -/
def verify (data : List UInt8) (container : Container) : EStateM Error Codec Verified := do
  let header ← puff data container
  let huffed ← huff header.puff header.block.isFinal
  let stream := data.drop header.containerSize
  let isSame := huffed.bits == header.bits && Bits.agree header.bits stream huffed.bytes
  unless isSame do remark (.mismatch header.bits huffed.bits)
  return { header, isSame }

end Codec
end DeflateHeader
