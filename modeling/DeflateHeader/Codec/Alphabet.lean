import DeflateHeader.Code.CodeTable
import DeflateHeader.Code.LookupTable

/-!
# One alphabet of a block

An alphabet holds the code lengths of its symbols and the tables built from them, one for each
direction. A build of one table leaves the other as it is, so the two may belong to different
lengths; `Codec` keeps track of which are of use.
-/

namespace DeflateHeader

/-- Code lengths and the tables for them. -/
structure Alphabet where
  lens : Lengths := []
  lookup : LookupTable := {}
  codes : CodeTable := {}
  deriving DecidableEq, Repr

namespace Alphabet

/-- Gives the tables storage for codes of up to `bits` bits and for `size` symbols, unless they
have some. -/
def reserve (bits size : Nat) (a : Alphabet) : Alphabet :=
  { a with
    lookup := if a.lookup.isEmpty then LookupTable.withCapacity bits else a.lookup
    codes := if a.codes.isEmpty then CodeTable.withSize size else a.codes }

/-- Builds the table for decoding. -/
def buildLookup : EStateM Error (Alphabet × CodeBook) Nat := do
  let (a, _) ← get
  focus (fun (a, book) => (a.lookup, book)) (fun (lookup, book) (a, _) => ({ a with lookup }, book))
    (LookupTable.build a.lens)

/-- Builds the table for encoding. -/
def buildCodes : EStateM Error (Alphabet × CodeBook) Nat := do
  let (a, _) ← get
  focus (fun (a, book) => (a.codes, book)) (fun (codes, book) (a, _) => ({ a with codes }, book))
    (CodeTable.build a.lens)

/-- The symbol whose code the bits of `key` start with, and the length of that code. -/
def symbolAt (a : Alphabet) (key : Nat) : Except Error (Nat × Nat) :=
  match a.lookup.lookup key with
  | none => .error (.invalid .unknownCode)
  | some symbol =>
    match a.lens[symbol]? with
    | none => .error (.invalid .unknownCode)
    | some len => .ok (symbol, len.toNat)

/-- The code of a symbol, with its bits in stream order, and the length of that code. -/
def codeOf (a : Alphabet) (symbol : Nat) : Except Error (Nat × Nat) :=
  match a.codes.code symbol, a.lens[symbol]? with
  | some code, some len =>
    if len = 0 then .error (.invalid (.unusedSymbol symbol)) else .ok (code, len.toNat)
  | _, _ => .error (.invalid (.unusedSymbol symbol))

end Alphabet
end DeflateHeader
