import DeflateHeader.Bits.Reader
import DeflateHeader.ByteSink
import DeflateHeader.Code.LookupTable
import DeflateHeader.Token

/-!
# Code lengths from the stream

`readLengths` reads tokens until enough code lengths are there. It writes each token as one byte
and expands it. The last run may go past the target, and is kept as it is.

A token is read in this order: lookahead for its code, room for its byte, the code, the symbol's
range, a length to repeat, the extra bits. What the first failing step left done stays done, and
every token before it is complete.
-/

namespace DeflateHeader

/-- Where a sequence of code lengths comes from and goes to. -/
structure LengthReading where
  reader : BitReader
  sink : ByteSink
  lens : Lengths
  deriving DecidableEq, Repr

namespace LengthReading

variable {α : Type}

/-- Runs an action on the reader. -/
def onReader (act : EStateM Error BitReader α) : EStateM Error LengthReading α :=
  focus reader (fun r s => { s with reader := r }) act

/-- Runs an action on the sink. -/
def onSink (act : EStateM Error ByteSink α) : EStateM Error LengthReading α :=
  focus sink (fun k s => { s with sink := k }) act

/-- Looks up the next symbol without consuming its code. -/
def nextSymbol (table : LookupTable) : EStateM Error LengthReading Nat := do
  onReader (BitReader.ensure table.maxBits)
  let key ← onReader (BitReader.peek table.maxBits)
  match table.lookup key with
  | some symbol => return symbol
  | none => throw (.invalid .unknownCode)

/-- Consumes the code of a symbol. -/
def dropCode (codeLens : Lengths) (symbol : Nat) : EStateM Error LengthReading Unit := do
  match codeLens[symbol]? with
  | some len => onReader (BitReader.drop len.toNat)
  | none => throw (.fault .outOfRange)

/-- Writes the byte of a token and expands it. -/
def accept (token : Token) : EStateM Error LengthReading Unit := do
  onSink (ByteSink.push token.toByte)
  match token.expand (← get).lens with
  | .ok lens => modify fun s => { s with lens }
  | .error e => throw e

/-- Reads one token. -/
def readToken (table : LookupTable) (codeLens : Lengths) : EStateM Error LengthReading Token := do
  let symbol ← nextSymbol table
  if (← get).sink.room = 0 then throw .insufficientOutput
  dropCode codeLens symbol
  match Token.extraWidth? symbol with
  | none => throw (.invalid (.invalidSymbol symbol))
  | some width =>
    if symbol = 16 ∧ (← get).lens = [] then throw (.invalid .repeatWithoutPrevious)
    let extra ← onReader (BitReader.take width)
    match Token.ofSymbol symbol extra with
    | .error e => throw e
    | .ok token =>
      accept token
      return token

/-- Reads tokens as long as lengths are missing, and returns how many it read. -/
def readTokens (table : LookupTable) (codeLens : Lengths) :
    Nat → EStateM Error LengthReading Nat
  | 0 => return 0
  | missing + 1 => do
    let token ← readToken table codeLens
    let more ← readTokens table codeLens (missing + 1 - token.count)
    return more + 1
termination_by missing => missing
decreasing_by
  have := token.count_pos
  omega

/-- Replaces the lengths by at least `target` ones from the stream, and returns the number of
tokens. -/
def readLengths (table : LookupTable) (codeLens : Lengths) (target : Nat) :
    EStateM Error LengthReading Nat := do
  modify fun s => { s with lens := [] }
  readTokens table codeLens target

end LengthReading
end DeflateHeader
