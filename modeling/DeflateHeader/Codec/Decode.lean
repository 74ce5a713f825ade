import DeflateHeader.Codec
import DeflateHeader.Token.Reading

/-!
# From a dynamic header to a puff buffer

`decodeHeader` reads a dynamic block header, just after the three bits of the block header, and
builds the tables for decoding the block. On the way it writes the header in puff form:

* three bytes with the fields,
* the lengths of the code-length alphabet as they are sent, two to a byte, the first one high;
  after an odd number the last half byte is zero,
* one byte for each run-length token.

The tokens of the two main alphabets are one sequence: a run may begin in one and end in the
other.
-/

namespace DeflateHeader

/-- A header that is being decoded. -/
structure Decoding where
  codec : Codec
  reader : BitReader
  sink : ByteSink
  deriving DecidableEq, Repr

namespace Decoding

variable {α : Type}

/-- Runs an action on the codec. -/
def onCodec (act : EStateM Error Codec α) : EStateM Error Decoding α :=
  focus codec (fun c s => { s with codec := c }) act

/-- Runs an action on the reader. -/
def onReader (act : EStateM Error BitReader α) : EStateM Error Decoding α :=
  focus reader (fun r s => { s with reader := r }) act

/-- Runs an action on the sink. -/
def onSink (act : EStateM Error ByteSink α) : EStateM Error Decoding α :=
  focus sink (fun k s => { s with sink := k }) act

/-- Runs an action that reads code lengths into the literal/length alphabet. -/
def onLengths (act : EStateM Error LengthReading α) : EStateM Error Decoding α :=
  focus (fun s => ⟨s.reader, s.sink, s.codec.litLen.lens⟩)
    (fun p s =>
      { codec := { s.codec with litLen := { s.codec.litLen with lens := p.lens } }
        reader := p.reader
        sink := p.sink })
    act

/-- Fails unless the sink has room for `n` bytes. -/
def needRoom (n : Nat) : EStateM Error Decoding Unit := do
  if (← get).sink.room < n then throw .insufficientOutput

/-- Reads and consumes a field that is cached. -/
def field (width : Nat) : EStateM Error Decoding Nat := do
  let value ← onReader (BitReader.peek width)
  onReader (BitReader.drop width)
  return value

/-- Reads the three fields, writes their bytes and returns the sizes that they stand for. -/
def readSizes : EStateM Error Decoding AlphabetSizes := do
  onReader (BitReader.ensure 14)
  let hlit ← field 5
  let hdist ← field 5
  let hclen ← field 4
  onSink (ByteSink.push (UInt8.ofNat hlit))
  onSink (ByteSink.push (UInt8.ofNat hdist))
  onSink (ByteSink.push (UInt8.ofNat hclen))
  match AlphabetSizes.ofFields hlit hdist hclen with
  | .ok sizes => return sizes
  | .error e => throw e

/-- Reads the lengths of the given code-length symbols and packs them, two to a byte; `low` says
that the next one goes into the low half of the last byte. -/
def readCodeLengths (low : Bool) : List Nat → EStateM Error Decoding Unit
  | [] => return ()
  | symbol :: rest => do
    let len ← onReader (BitReader.take 3)
    let len := UInt8.ofNat len
    onCodec (Codec.setCodeLength symbol len)
    if low then onSink (ByteSink.orLast len) else onSink (ByteSink.push (len <<< 4))
    readCodeLengths (!low) rest

/-- Decodes a dynamic header and returns the size of its puff form. -/
def decodeHeader : EStateM Error Decoding Nat := do
  onCodec Codec.begin
  needRoom 3
  let sizes ← readSizes
  onCodec (Codec.remark (.sizes sizes))
  needRoom sizes.packedSize
  onCodec Codec.clearCodeLengths
  readCodeLengths false sizes.sentSymbols
  discard <| onCodec (Codec.onCodeLength Alphabet.buildLookup)
  let alphabet := (← get).codec.codeLength
  let tokens ← onLengths (LengthReading.readLengths alphabet.lookup alphabet.lens sizes.total)
  onCodec (Codec.splitLengths sizes.litLen)
  let litLenBits ← onCodec (Codec.onLitLen Alphabet.buildLookup)
  let distanceBits ← onCodec (Codec.onDistance Alphabet.buildLookup)
  let size := 3 + sizes.packedSize + tokens
  onCodec (Codec.remark (.decoded size litLenBits distanceBits))
  onCodec (Codec.finish .dynamicDecode)
  return size

end Decoding
end DeflateHeader
