import DeflateHeader.Code.Reverse
import DeflateHeader.Error

/-!
# Canonical codes from code lengths

A canonical Huffman code is given by one code length per symbol, 0 for a symbol that does not
occur. Codes of one length are consecutive numbers in the order of their symbols, and the first
code of a length follows from the counts of the shorter ones (`firstCode`). `unused` is the code
space that is left at a length; the lengths are accepted when it never becomes negative, so an
incomplete code is accepted, as is one without any symbol.

`assign` checks the lengths and lists one code word per symbol in use, in the order of the
symbols, with reversed codes. On failure the old list stays.
-/

namespace DeflateHeader

/-- One code length per symbol. -/
abbrev Lengths := List UInt8

/-- The longest code that DEFLATE allows. -/
def maxCodeBits : Nat := 15

/-- Symbols are 16 bits wide. -/
def symbolRange : Nat := 65536

/-- A symbol and its code, with the bits in stream order. -/
structure CodeWord where
  code : Nat
  symbol : Nat
  deriving DecidableEq, Repr

/-- A list of code words. -/
abbrev CodeBook := List CodeWord

namespace Lengths

/-- How many symbols have length `l`. -/
def count (lens : Lengths) (l : Nat) : Nat := lens.countP fun len => len.toNat == l

/-- Whether no symbol has a code. -/
def allZero (lens : Lengths) : Bool := lens.all (· == 0)

/-- The counts of the lengths 0 to 15. -/
def counts (lens : Lengths) : Array Nat :=
  ((List.range (maxCodeBits + 1)).map lens.count).toArray

end Lengths

/-- The first code of each length, from the counts of the shorter ones. -/
def firstCode (count : Nat → Nat) : Nat → Nat
  | 0 => 0
  | l + 1 => 2 * (firstCode count l + if l = 0 then 0 else count l)

/-- The code space left at a length, in units of that length's codes. -/
def unused (count : Nat → Nat) : Nat → Int
  | 0 => 1
  | l + 1 => 2 * unused count l - count (l + 1)

/-- The longest length in use, 0 if there is none. -/
def longest (count : Nat → Nat) : Nat :=
  ((List.range' 1 maxCodeBits).reverse.find? fun l => count l != 0).getD 0

/-- The first length, up to `maxBits`, at which the code space is exhausted. -/
def exhausted? (count : Nat → Nat) (maxBits : Nat) : Option Nat :=
  (List.range' 1 maxBits).find? fun l => unused count l < 0

/-- The first length above 15. -/
def tooLong? (lens : Lengths) : Option UInt8 := lens.find? fun len => maxCodeBits < len.toNat

/-- Code words for the symbols from `symbol` on, where `next` has the next code of each length.
`none` if a length is not below the size of `next`. -/
def codeWords (next : Array Nat) (symbol : Nat) : Lengths → Option CodeBook
  | [] => some []
  | len :: rest =>
    if len = 0 then codeWords next (symbol + 1) rest
    else match next[len.toNat]? with
      | none => none
      | some code =>
        let word : CodeWord := ⟨bitReverse code len.toNat, symbol % symbolRange⟩
        (codeWords (next.setIfInBounds len.toNat (code + 1)) (symbol + 1) rest).map (word :: ·)

namespace CodeBook

/-- Replaces the book by the code words of `lens` and returns the longest length. -/
def assign (lens : Lengths) : EStateM Error CodeBook Nat := do
  if let some len := tooLong? lens then throw (.invalid (.codeLengthTooLong len.toNat))
  let counts := lens.counts
  let count l := counts.getD l 0
  let maxBits := longest count
  if let some l := exhausted? count maxBits then throw (.invalid (.oversubscribed l (count l)))
  let next := ((List.range (maxCodeBits + 1)).map (firstCode count)).toArray
  match codeWords next 0 lens with
  | none => throw (.fault .outOfRange)
  | some words => set words
  return maxBits

end CodeBook
end DeflateHeader
