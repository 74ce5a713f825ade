import DeflateHeader.Codec
import DeflateHeader.Token.Writing

/-!
# From a puff buffer to a dynamic header

`encodeHeader` writes the dynamic header that a puff buffer describes and builds the tables for
encoding the block. The buffer must be exactly one header. The fields, the packed lengths and the
code-length code are checked before the first bit is written; whether bytes are left over shows
only at the end.
-/

namespace DeflateHeader

/-- A header that is being encoded. -/
structure Encoding where
  codec : Codec
  writer : BitWriter
  deriving DecidableEq, Repr

namespace Encoding

variable {α : Type}

/-- Runs an action on the codec. -/
def onCodec (act : EStateM Error Codec α) : EStateM Error Encoding α :=
  focus codec (fun c s => { s with codec := c }) act

/-- Runs an action on the writer. -/
def onWriter (act : EStateM Error BitWriter α) : EStateM Error Encoding α :=
  focus writer (fun w s => { s with writer := w }) act

/-- Runs an action that writes code lengths from the literal/length alphabet. -/
def onLengths (act : EStateM Error LengthWriting α) : EStateM Error Encoding α :=
  focus (fun s => ⟨s.writer, s.codec.litLen.lens⟩)
    (fun p s =>
      { codec := { s.codec with litLen := { s.codec.litLen with lens := p.lens } }
        writer := p.writer })
    act

/-- The half bytes of a byte string, the high one of each byte first. -/
def nibbles (bytes : List UInt8) : List UInt8 :=
  bytes.flatMap fun (b : UInt8) => [b >>> 4, b &&& 0x0F]

/-- Sets the lengths of code-length symbols; each must fit three bits. -/
def setCodeLengths : List (Nat × UInt8) → EStateM Error Encoding Unit
  | [] => return ()
  | (symbol, len) :: rest => do
    if 7 < len then throw (.invalid (.headerField len.toNat 3))
    onCodec (Codec.setCodeLength symbol len)
    setCodeLengths rest

/-- Fails if the half byte after an odd number of lengths is not zero. -/
def checkPadding (sizes : AlphabetSizes) (packed : List UInt8) : EStateM Error Encoding Unit := do
  if sizes.codeLength % 2 = 1 then
    match packed.getLast? with
    | none => throw (.fault .outOfRange)
    | some last =>
      let pad := last &&& 0x0F
      if pad ≠ 0 then throw (.invalid (.paddingNibble pad.toNat))

/-- Writes the lengths of code-length symbols. -/
def writeCodeLengths : List Nat → EStateM Error Encoding Unit
  | [] => return ()
  | symbol :: rest => do
    match (← get).codec.codeLength.lens[symbol]? with
    | none => throw (.fault .outOfRange)
    | some len => onWriter (BitWriter.put 3 len.toNat)
    writeCodeLengths rest

/-- Encodes what comes after the fields: `body` holds the packed lengths and the tokens of a
buffer of `size` bytes. -/
def encodeBody (fields : Nat × Nat × Nat) (sizes : AlphabetSizes) (size : Nat)
    (body : List UInt8) : EStateM Error Encoding Unit := do
  if body.length < sizes.packedSize then throw .insufficientInput
  let packed := body.take sizes.packedSize
  onCodec Codec.clearCodeLengths
  setCodeLengths (sizes.sentSymbols.zip (nibbles packed))
  checkPadding sizes packed
  discard <| onCodec (Codec.onCodeLength Alphabet.buildCodes)
  onCodec (Codec.remark (.sizes sizes))
  let (hlit, hdist, hclen) := fields
  onWriter (BitWriter.put 5 hlit)
  onWriter (BitWriter.put 5 hdist)
  onWriter (BitWriter.put 4 hclen)
  writeCodeLengths sizes.sentSymbols
  let alphabet := (← get).codec.codeLength
  let tokens ← onLengths (LengthWriting.writeLengths alphabet.codes alphabet.lens
    (body.drop sizes.packedSize) sizes.total)
  onCodec (Codec.splitLengths sizes.litLen)
  discard <| onCodec (Codec.onLitLen Alphabet.buildCodes)
  discard <| onCodec (Codec.onDistance Alphabet.buildCodes)
  let consumed := 3 + sizes.packedSize + tokens
  if consumed ≠ size then throw (.invalid (.trailingBytes consumed size))
  onCodec (Codec.remark (.encoded (← get).writer.bitCount))
  onCodec (Codec.finish .dynamicEncode)

/-- Encodes the header that a puff buffer describes. -/
def encodeHeader (puff : List UInt8) : EStateM Error Encoding Unit := do
  onCodec Codec.begin
  match puff with
  | hlit :: hdist :: hclen :: body =>
    match AlphabetSizes.ofFields hlit.toNat hdist.toNat hclen.toNat with
    | .error e => throw e
    | .ok sizes =>
      encodeBody (hlit.toNat, hdist.toNat, hclen.toNat) sizes puff.length body
  | _ => throw .insufficientInput

end Encoding
end DeflateHeader
