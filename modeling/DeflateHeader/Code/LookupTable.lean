import DeflateHeader.Code.Canonical
import DeflateHeader.Focus

/-!
# Decoding by lookup

A lookup table is indexed by `maxBits` bits of lookahead. A code of length `l` owns every slot
whose number ends in the code's `l` bits: the code's own number and `2 ^ (maxBits - l) - 1`
padded ones. Codes are placed longest first. A code's own slot is written in any case, a padded
slot only while it is empty; slots that no code owns stay empty.
-/

namespace DeflateHeader

/-- How many slots a lookahead of `bits` bits selects from. -/
def slotCount (bits : Nat) : Nat := Nat.pow 2 bits

/-- A slot keeps 15 bits of its symbol. -/
def slotSymbols : Nat := 32768

/-- Symbols by lookahead. -/
structure LookupTable where
  /-- How many slots a build may use; 0 as long as the table has no storage. -/
  capacity : Nat := 0
  /-- The longest code, and the width of the lookahead. -/
  maxBits : Nat := 0
  /-- The slots in use. -/
  slots : Array (Option Nat) := #[]
  deriving DecidableEq, Repr

/-- A code word and the length of its code. -/
structure SizedWord where
  length : Nat
  word : CodeWord
  deriving DecidableEq, Repr

namespace LookupTable

/-- A table with storage for codes of up to `bits` bits. -/
def withCapacity (bits : Nat) : LookupTable := { capacity := slotCount bits }

/-- Whether the table has no storage. -/
def isEmpty (t : LookupTable) : Bool := t.capacity == 0

/-- The symbol whose code the bits of `key` start with. -/
def lookup (t : LookupTable) (key : Nat) : Option Nat :=
  (t.slots[key % slotCount t.maxBits]?).join

/-- Each word with the length that `lens` gives to its symbol; `none` if a symbol is outside. -/
def sized (lens : Array UInt8) (book : CodeBook) : Option (List SizedWord) :=
  book.mapM fun word => lens[word.symbol]?.map fun len => ⟨len.toNat, word⟩

/-- The words from the longest to the shortest; words of one length keep their order. -/
def longestFirst (words : List SizedWord) : List SizedWord :=
  (List.range (maxCodeBits + 1)).reverse.flatMap fun l => words.filter fun w => w.length == l

/-- Writes a slot. -/
def fill (symbol : Nat) (slots : Array (Option Nat)) (slot : Nat) :
    Option (Array (Option Nat)) :=
  if slot < slots.size then some (slots.setIfInBounds slot (some symbol)) else none

/-- Writes a slot if it is empty. -/
def fillEmpty (symbol : Nat) (slots : Array (Option Nat)) (slot : Nat) :
    Option (Array (Option Nat)) :=
  match slots[slot]? with
  | none => none
  | some (some _) => some slots
  | some none => fill symbol slots slot

/-- The slots that a code owns besides its own number. -/
def padded (maxBits : Nat) (w : SizedWord) : List Nat :=
  (List.range' 1 (slotCount (maxBits - w.length) - 1)).map fun pad =>
    pad <<< w.length ||| w.word.code

/-- Places one word; `none` if a slot is outside the table or the code too long for it. -/
def place (maxBits : Nat) (slots : Array (Option Nat)) (w : SizedWord) :
    Option (Array (Option Nat)) := do
  let symbol := w.word.symbol % slotSymbols
  if maxBits < w.length then none
  let slots ← fill symbol slots w.word.code
  (padded maxBits w).foldlM (fillEmpty symbol) slots

/-- The slots after all words are placed, one after the other, in an empty table. -/
def placeAll (maxBits : Nat) (words : List SizedWord) : Option (Array (Option Nat)) :=
  words.foldlM (place maxBits) (Array.replicate (slotCount maxBits) none)

/-- Builds the table for `lens` and returns the longest length. The code book is left sorted,
longest codes first. -/
def build (lens : Lengths) : EStateM Error (LookupTable × CodeBook) Nat := do
  let maxBits ← focus Prod.snd (fun book s => (s.1, book)) (CodeBook.assign lens)
  let (table, book) ← get
  if table.capacity < slotCount maxBits then throw (.invalid (.codeLengthTooLong maxBits))
  match sized lens.toArray book with
  | none => throw (.fault .outOfRange)
  | some words =>
    let sorted := longestFirst words
    match placeAll maxBits sorted with
    | none => throw (.fault .outOfRange)
    | some slots =>
      set ({ table with maxBits, slots }, sorted.map SizedWord.word)
      return maxBits

end LookupTable
end DeflateHeader
