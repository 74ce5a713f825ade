import DeflateHeader.Code.Canonical
import DeflateHeader.Focus

/-!
# Encoding by symbol

A code table has one code per symbol, 0 for a symbol without a code: whoever uses a code looks at
the symbol's length first. Lengths of symbols past the size of the table are ignored.
-/

namespace DeflateHeader

/-- Codes by symbol. -/
structure CodeTable where
  codes : Array Nat := #[]
  deriving DecidableEq, Repr

namespace CodeTable

/-- A table for an alphabet of `size` symbols. -/
def withSize (size : Nat) : CodeTable := ⟨Array.replicate size 0⟩

/-- How many symbols the table has. -/
def size (t : CodeTable) : Nat := t.codes.size

/-- Whether the table has no storage. -/
def isEmpty (t : CodeTable) : Bool := t.codes.isEmpty

/-- The code of a symbol; `none` outside the table. -/
def code (t : CodeTable) (symbol : Nat) : Option Nat := t.codes[symbol]?

/-- Puts a word before the first one with no smaller symbol. -/
def insertBySymbol (word : CodeWord) : CodeBook → CodeBook
  | [] => [word]
  | w :: ws => if w.symbol < word.symbol then w :: insertBySymbol word ws else word :: w :: ws

/-- The words in the order of their symbols; words of one symbol keep their order. -/
def bySymbol (book : CodeBook) : CodeBook := book.foldr insertBySymbol []

/-- The codes of `n` symbols from `symbol` on, taken from the front of a sorted book. -/
def codesFrom (symbol : Nat) : Nat → CodeBook → List Nat
  | 0, _ => []
  | n + 1, [] => 0 :: codesFrom (symbol + 1) n []
  | n + 1, w :: ws =>
    if w.symbol = symbol then w.code :: codesFrom (symbol + 1) n ws
    else 0 :: codesFrom (symbol + 1) n (w :: ws)

/-- Builds the table for `lens` and returns the longest length. The code book is left sorted by
symbol. -/
def build (lens : Lengths) : EStateM Error (CodeTable × CodeBook) Nat := do
  let maxBits ← focus Prod.snd (fun book s => (s.1, book)) (CodeBook.assign lens)
  let (table, book) ← get
  let sorted := bySymbol book
  set (CodeTable.mk (codesFrom 0 table.size sorted).toArray, sorted)
  return maxBits

end CodeTable
end DeflateHeader
