import DeflateHeader.Transcode

/-!
# The report on the fixed tables

Six lines with the sizes, and on demand a line for each literal/length symbol with its code,
most significant bit first.
-/

namespace DeflateHeader.Cli

/-- The text with `fill` before it, up to a width. -/
def padLeft (fill : Char) (width : Nat) (text : String) : String :=
  String.ofList (List.replicate (width - text.length) fill) ++ text

/-- The sizes of the fixed tables. -/
structure FixedSizes where
  litLenSymbols : Nat
  litLenBits : Nat
  distanceSymbols : Nat
  distanceBits : Nat
  deriving DecidableEq, Repr

namespace FixedSizes

/-- The sizes of the tables that a codec holds. -/
def ofCodec (c : Codec) : FixedSizes where
  litLenSymbols := c.litLen.lens.length
  litLenBits := c.litLen.lookup.maxBits
  distanceSymbols := c.distance.lens.length
  distanceBits := c.distance.lookup.maxBits

/-- The six lines of the report. -/
def lines (s : FixedSizes) : List String :=
  [ "Literal/length symbols:       " ++ toString s.litLenSymbols,
    "Literal/length max bits:      " ++ toString s.litLenBits,
    "Distance symbols:             " ++ toString s.distanceSymbols,
    "Distance max bits:            " ++ toString s.distanceBits,
    "Max puff header size:         " ++ toString maxPuffSize,
    "Max encoded header bits:      " ++ toString maxHeaderBits ]

end FixedSizes

/-- The line of a symbol, if it has a code. -/
def symbolLine? (c : Codec) (symbol : Nat) : Option String :=
  match c.litLenCode symbol with
  | .error _ => none
  | .ok (code, len) =>
    let bits := String.ofList (Nat.toDigits 2 (bitReverse code len))
    some ("  " ++ padLeft ' ' 6 (toString symbol) ++ "  " ++ padLeft ' ' 3 (toString len) ++ "  "
      ++ padLeft '0' len bits)

/-- The table of all codes under a blank line and a heading. -/
def symbolLines (c : Codec) : List String :=
  "" :: "  SYMBOL  LEN  CODE" :: (List.range c.litLen.lens.length).filterMap (symbolLine? c)

end DeflateHeader.Cli
