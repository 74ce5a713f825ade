import DeflateHeader.Code.Fixed

/-!
# Alphabet sizes of a dynamic header

A dynamic header starts with three fields of 5, 5 and 4 bits: the number of literal/length
symbols less 257, of distance symbols less 1 and of code-length symbols less 4. The lengths of
the code-length alphabet follow in the order `codeLengthOrder`, which puts rare symbols last so
that they can be left out.
-/

namespace DeflateHeader

/-- The order in which the lengths of the code-length alphabet are sent. -/
def codeLengthOrder : List Nat :=
  [16, 17, 18, 0, 8, 7, 9, 6, 10, 5, 11, 4, 12, 3, 13, 2, 14, 1, 15]

/-- How many symbols each alphabet of a dynamic block has. -/
structure AlphabetSizes where
  litLen : Nat
  distance : Nat
  codeLength : Nat
  deriving DecidableEq, Repr

namespace AlphabetSizes

/-- The widths of the three fields. -/
def fieldWidths : List Nat := [5, 5, 4]

/-- The first field value that does not fit its width. -/
def wideField? (fields : List Nat) : Option (Nat × Nat) :=
  (fields.zip fieldWidths).find? fun (value, width) => value >>> width != 0

/-- The sizes that three field values stand for. Each value must fit its field and each size its
alphabet. -/
def ofFields (hlit hdist hclen : Nat) : Except Error AlphabetSizes :=
  match wideField? [hlit, hdist, hclen] with
  | some (value, width) => .error (.invalid (.headerField value width))
  | none =>
    let sizes : AlphabetSizes := ⟨hlit + 257, hdist + 1, hclen + 4⟩
    if maxLitLenCount < sizes.litLen ∨ maxDistanceCount < sizes.distance
        ∨ codeLengthCount < sizes.codeLength then
      .error (.invalid (.alphabetSize sizes.litLen sizes.distance sizes.codeLength))
    else .ok sizes

/-- The three field values. -/
def fields (s : AlphabetSizes) : List Nat := [s.litLen - 257, s.distance - 1, s.codeLength - 4]

/-- How many lengths the two main alphabets have together. -/
def total (s : AlphabetSizes) : Nat := s.litLen + s.distance

/-- How many bytes of a puff buffer hold the lengths of the code-length alphabet, two in each. -/
def packedSize (s : AlphabetSizes) : Nat := (s.codeLength + 1) / 2

/-- The code-length symbols whose lengths are sent, in the order in which they are sent. -/
def sentSymbols (s : AlphabetSizes) : List Nat := codeLengthOrder.take s.codeLength

end AlphabetSizes
end DeflateHeader
