import DeflateHeader.Code.Canonical

/-!
# Run-length tokens

A sequence of code lengths is sent as tokens: a length, a repetition of the length before, or a
run of zeros, short or long. A token has two forms. In the stream it is a symbol of the
code-length alphabet and a few extra bits:

* 0 to 15: that length,
* 16: 2 extra bits, repeats the length before 3 to 6 times,
* 17: 3 extra bits, 3 to 10 zeros,
* 18: 7 extra bits, 11 to 138 zeros.

In a puff buffer it is one byte: the lengths come first, then the repetitions from 16 on, the
short runs from 20 on and the long runs from 28 to 155. The payload of each constructor is the
value of the extra bits, so every token has both forms.
-/

namespace DeflateHeader

/-- A token; repetitions and runs carry the value of their extra bits. -/
inductive Token
  | length (len : Fin 16)
  | repeatPrevious (extra : Fin 4)
  | repeatZero (extra : Fin 8)
  | repeatZeroLong (extra : Fin 128)
  deriving DecidableEq, Repr

namespace Token

/-- How many lengths a token stands for. -/
def count : Token → Nat
  | length _ => 1
  | repeatPrevious extra => 3 + extra
  | repeatZero extra => 3 + extra
  | repeatZeroLong extra => 11 + extra

theorem count_pos (t : Token) : 0 < t.count := by
  unfold count
  split <;> omega

/-- The symbol of the code-length alphabet. -/
def symbol : Token → Nat
  | length len => len
  | repeatPrevious _ => 16
  | repeatZero _ => 17
  | repeatZeroLong _ => 18

/-- The width of the extra bits that follow a symbol; `none` for a symbol above 18. -/
def extraWidth? (symbol : Nat) : Option Nat :=
  if symbol < 16 then some 0
  else match symbol with
    | 16 => some 2
    | 17 => some 3
    | 18 => some 7
    | _ => none

/-- The width of the extra bits. -/
def extraWidth : Token → Nat
  | length _ => 0
  | repeatPrevious _ => 2
  | repeatZero _ => 3
  | repeatZeroLong _ => 7

/-- The value of the extra bits. -/
def extra : Token → Nat
  | length _ => 0
  | repeatPrevious extra => extra
  | repeatZero extra => extra
  | repeatZeroLong extra => extra

/-- The byte that stands for a token in a puff buffer. -/
def toByte : Token → UInt8
  | length len => UInt8.ofNat len
  | repeatPrevious extra => UInt8.ofNat (16 + extra)
  | repeatZero extra => UInt8.ofNat (20 + extra)
  | repeatZeroLong extra => UInt8.ofNat (28 + extra)

/-- The token for a byte of a puff buffer; `none` above 155. -/
def ofByte? (byte : UInt8) : Option Token :=
  let n := byte.toNat
  if n < 16 then some (length (Fin.ofNat 16 n))
  else if n < 20 then some (repeatPrevious (Fin.ofNat 4 (n - 16)))
  else if n < 28 then some (repeatZero (Fin.ofNat 8 (n - 20)))
  else if n < 156 then some (repeatZeroLong (Fin.ofNat 128 (n - 28)))
  else none

/-- The token for a symbol and its extra bits, of which only those in use count; `none` for a
symbol above 18. -/
def ofSymbol? (symbol extra : Nat) : Option Token :=
  if symbol < 16 then some (length (Fin.ofNat 16 symbol))
  else match symbol with
    | 16 => some (repeatPrevious (Fin.ofNat 4 extra))
    | 17 => some (repeatZero (Fin.ofNat 8 extra))
    | 18 => some (repeatZeroLong (Fin.ofNat 128 extra))
    | _ => none

/-- The token for a byte, or the reason why there is none. -/
def ofByte (byte : UInt8) : Except Error Token :=
  match ofByte? byte with
  | some token => .ok token
  | none => .error (.invalid (.invalidToken byte.toNat))

/-- The token for a symbol, or the reason why there is none. -/
def ofSymbol (symbol extra : Nat) : Except Error Token :=
  match ofSymbol? symbol extra with
  | some token => .ok token
  | none => .error (.invalid (.invalidSymbol symbol))

/-- The length that a token repeats after `lens`; a repetition needs a length before it. -/
def value? (lens : Lengths) : Token → Option UInt8
  | length len => some (UInt8.ofNat len)
  | repeatPrevious _ => lens.getLast?
  | repeatZero _ => some 0
  | repeatZeroLong _ => some 0

/-- Appends the lengths that a token stands for. -/
def expand (t : Token) (lens : Lengths) : Except Error Lengths :=
  match t.value? lens with
  | some value => .ok (lens ++ List.replicate t.count value)
  | none => .error (.invalid .repeatWithoutPrevious)

/-- Whether a token repeats the length before it. -/
def isRepeatPrevious : Token → Bool
  | repeatPrevious _ => true
  | _ => false

@[simp] theorem ofByte?_toByte (t : Token) : ofByte? t.toByte = some t := by
  cases t with
  | length x => revert x; decide
  | repeatPrevious x => revert x; decide
  | repeatZero x => revert x; decide
  | repeatZeroLong x => revert x; decide

@[simp] theorem ofSymbol?_symbol (t : Token) : ofSymbol? t.symbol t.extra = some t := by
  cases t with
  | length x => revert x; decide
  | repeatPrevious x => revert x; decide
  | repeatZero x => revert x; decide
  | repeatZeroLong x => revert x; decide

end Token
end DeflateHeader
