import DeflateHeader.Codec.Alphabet
import DeflateHeader.Note

/-!
# The codec

A `Codec` holds the three alphabets of a block: the code-length alphabet, by which a dynamic
header describes the other two, the literal/length and the distance alphabet. It is reused from
one header to the next. `loaded` says which tables the last build left in a usable state; while a
build runs, and after one that failed, none are.

The accessors `litLenSymbol` to `distanceCode` answer only for a loaded direction.
-/

namespace DeflateHeader

/-- A set of tables that belong together. -/
inductive TableSet
  /-- The tables of the fixed code, for both directions. -/
  | fixed
  /-- The tables of a header that was read. -/
  | dynamicDecode
  /-- The tables of a header that was written. -/
  | dynamicEncode
  deriving DecidableEq, Repr

namespace TableSet

/-- Whether the set serves a direction. -/
def serves : TableSet → Direction → Bool
  | fixed, _ => true
  | dynamicDecode, .decode => true
  | dynamicEncode, .encode => true
  | _, _ => false

end TableSet

/-- The tables of a block, and what was remarked while they were built. -/
structure Codec where
  codeLength : Alphabet := {}
  litLen : Alphabet := {}
  distance : Alphabet := {}
  /-- The code words of the build before. -/
  book : CodeBook := []
  loaded : Option TableSet := none
  /-- The remarks so far, the oldest first. -/
  notes : List Note := []
  deriving DecidableEq, Repr

namespace Codec

/-- A codec without storage. -/
def new : Codec := {}

/-- Gives all tables their storage. -/
def reserve (c : Codec) : Codec :=
  let codeLength := c.codeLength.reserve maxCodeLengthBits codeLengthCount
  { c with
    codeLength :=
      if codeLength.lens.length = codeLengthCount then codeLength
      else { codeLength with lens := List.replicate codeLengthCount 0 }
    litLen := c.litLen.reserve maxCodeBits fixedLitLenCount
    distance := c.distance.reserve maxCodeBits maxDistanceCount }

/-- Forgets everything but the remarks. -/
def reset (c : Codec) : Codec := { notes := c.notes }

/-- Adds a remark. -/
def remark (note : Note) : EStateM Error Codec Unit :=
  modify fun c => { c with notes := c.notes ++ [note] }

/-- Marks a build as begun: no tables are loaded until it ends. -/
def begin : EStateM Error Codec Unit := modify fun c => { c with loaded := none }.reserve

/-- Marks a build as done. -/
def finish (set : TableSet) : EStateM Error Codec Unit :=
  modify fun c => { c with loaded := some set }

/-- Remarks that no symbol of an alphabet has a code, if so. -/
def remarkLengths (lens : Lengths) : EStateM Error Codec Unit :=
  if lens.allZero then remark .noLengths else pure ()

variable {α : Type}

/-- Runs a build on one alphabet and the code book, after a remark on its lengths. -/
def building (view : Codec → Alphabet) (put : Alphabet → Codec → Codec)
    (act : EStateM Error (Alphabet × CodeBook) α) : EStateM Error Codec α := do
  remarkLengths (view (← get)).lens
  focus (fun c => (view c, c.book)) (fun s c => { put s.1 c with book := s.2 }) act

/-- Runs a build on the code-length alphabet. -/
def onCodeLength : EStateM Error (Alphabet × CodeBook) α → EStateM Error Codec α :=
  building codeLength fun a c => { c with codeLength := a }

/-- Runs a build on the literal/length alphabet. -/
def onLitLen : EStateM Error (Alphabet × CodeBook) α → EStateM Error Codec α :=
  building litLen fun a c => { c with litLen := a }

/-- Runs a build on the distance alphabet. -/
def onDistance : EStateM Error (Alphabet × CodeBook) α → EStateM Error Codec α :=
  building distance fun a c => { c with distance := a }

/-- Sets the code length of a code-length symbol. -/
def setCodeLength (symbol : Nat) (len : UInt8) : EStateM Error Codec Unit := do
  let c ← get
  if c.codeLength.lens.length ≤ symbol then throw (.fault .outOfRange)
  set { c with codeLength := { c.codeLength with lens := c.codeLength.lens.set symbol len } }

/-- Sets all code lengths of the code-length alphabet to zero. -/
def clearCodeLengths : EStateM Error Codec Unit :=
  modify fun c =>
    { c with codeLength := { c.codeLength with lens := c.codeLength.lens.map fun _ => 0 } }

/-- Moves the lengths past the first `n` of the literal/length alphabet to the distance
alphabet. -/
def splitLengths (n : Nat) : EStateM Error Codec Unit := do
  let c ← get
  if c.litLen.lens.length < n then throw (.fault .outOfRange)
  set { c with
    litLen := { c.litLen with lens := c.litLen.lens.take n }
    distance := { c.distance with lens := c.litLen.lens.drop n } }

/-- Builds the tables of the fixed code, unless they are loaded. -/
def buildFixed : EStateM Error Codec Unit := do
  if (← get).loaded = some .fixed then return
  begin
  modify fun c =>
    { c with
      litLen := { c.litLen with lens := fixedLitLenLengths }
      distance := { c.distance with lens := fixedDistanceLengths } }
  let litLenBits ← onLitLen Alphabet.buildLookup
  let distanceBits ← onDistance Alphabet.buildLookup
  discard <| onLitLen Alphabet.buildCodes
  discard <| onDistance Alphabet.buildCodes
  remark (.fixedBuilt litLenBits distanceBits)
  finish .fixed

/-- The answer of an alphabet, if tables for the direction are loaded. -/
def guarded (c : Codec) (direction : Direction) (answer : Except Error α) : Except Error α :=
  match c.loaded with
  | some set =>
    if set.serves direction then answer else .error (.invalid (.tablesNotLoaded direction))
  | none => .error (.invalid (.tablesNotLoaded direction))

/-- The literal/length symbol whose code `key` starts with, and the length of the code. -/
def litLenSymbol (c : Codec) (key : Nat) : Except Error (Nat × Nat) :=
  c.guarded .decode (c.litLen.symbolAt key)

/-- The distance symbol whose code `key` starts with, and the length of the code. -/
def distanceSymbol (c : Codec) (key : Nat) : Except Error (Nat × Nat) :=
  c.guarded .decode (c.distance.symbolAt key)

/-- The code of a literal/length symbol and its length. -/
def litLenCode (c : Codec) (symbol : Nat) : Except Error (Nat × Nat) :=
  c.guarded .encode (c.litLen.codeOf symbol)

/-- The code of a distance symbol and its length. -/
def distanceCode (c : Codec) (symbol : Nat) : Except Error (Nat × Nat) :=
  c.guarded .encode (c.distance.codeOf symbol)

end Codec
end DeflateHeader
