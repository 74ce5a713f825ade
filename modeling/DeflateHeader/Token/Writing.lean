import DeflateHeader.Bits.Writer
import DeflateHeader.Code.CodeTable
import DeflateHeader.Token

/-!
# Code lengths into the stream

`writeLengths` takes tokens from a byte string until they stand for enough code lengths, and
writes each of them as its code and its extra bits. Tokens after that are left alone.

A token is written only if its symbol has a code and, for a repetition, a length comes before it.
The code and the extra bits are two fields, so a full buffer can end the output between them.
-/

namespace DeflateHeader

/-- Where a sequence of code lengths goes to. -/
structure LengthWriting where
  writer : BitWriter
  lens : Lengths
  deriving DecidableEq, Repr

namespace LengthWriting

variable {α : Type}

/-- Runs an action on the writer. -/
def onWriter (act : EStateM Error BitWriter α) : EStateM Error LengthWriting α :=
  focus writer (fun w s => { s with writer := w }) act

/-- The code of a symbol and its length, if the symbol has one. -/
def codeOf? (table : CodeTable) (symbol length : Nat) : Option Nat :=
  if length = 0 then none else table.code symbol

/-- Writes the token that a byte stands for. -/
def writeToken (table : CodeTable) (codeLens : Lengths) (byte : UInt8) :
    EStateM Error LengthWriting Token := do
  match Token.ofByte byte with
  | .error e => throw e
  | .ok token =>
    match codeLens[token.symbol]? with
    | none => throw (.fault .outOfRange)
    | some length =>
      match codeOf? table token.symbol length.toNat with
      | none => throw (.invalid (.unusedSymbol token.symbol))
      | some code =>
        if token.isRepeatPrevious ∧ (← get).lens = [] then
          throw (.invalid .repeatWithoutPrevious)
        onWriter (BitWriter.put length.toNat code)
        onWriter (BitWriter.put token.extraWidth token.extra)
        match token.expand (← get).lens with
        | .ok lens => modify fun s => { s with lens }
        | .error e => throw e
        return token

/-- Writes tokens as long as lengths are missing, and returns how many it wrote. -/
def writeTokens (table : CodeTable) (codeLens : Lengths) :
    Nat → List UInt8 → EStateM Error LengthWriting Nat
  | 0, _ => return 0
  | _ + 1, [] => throw .insufficientInput
  | missing + 1, byte :: rest => do
    let token ← writeToken table codeLens byte
    let more ← writeTokens table codeLens (missing + 1 - token.count) rest
    return more + 1

/-- Replaces the lengths by at least `target` ones from the tokens, and returns the number of
tokens. -/
def writeLengths (table : CodeTable) (codeLens : Lengths) (tokens : List UInt8) (target : Nat) :
    EStateM Error LengthWriting Nat := do
  modify fun s => { s with lens := [] }
  writeTokens table codeLens target tokens

end LengthWriting
end DeflateHeader
