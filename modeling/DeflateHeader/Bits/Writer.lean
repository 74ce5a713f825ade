import DeflateHeader.Bits.Reader

/-!
# Writing bits into a bounded buffer

A `BitWriter` gathers bits in a 64-bit word, from the low end up, and moves every full byte into
its buffer. `put` checks first that the buffer has room for all bits held so far, the last byte
rounded up, so a field is written as a whole or not at all, and the last partial byte always
fits.
-/

namespace DeflateHeader

/-- A buffer that is filled bit by bit. -/
structure BitWriter where
  /-- The bytes of the buffer that are written. -/
  written : Array UInt8
  /-- The bytes of the buffer that are still as they were. -/
  rest : List UInt8
  /-- The bits that do not fill a byte yet, from the least significant one on. -/
  holder : UInt64
  /-- How many bits the holder has. -/
  held : Nat
  deriving DecidableEq, Repr

namespace BitWriter

/-- A writer at the start of the buffer `bytes`. -/
def ofBuffer (bytes : List UInt8) : BitWriter := ⟨#[], bytes, 0, 0⟩

/-- Bits written since the start. -/
def bitCount (w : BitWriter) : Nat := 8 * w.written.size + w.held

/-- Bytes that hold a written bit. -/
def size (w : BitWriter) : Nat := w.written.size + (w.held + 7) / 8

/-- The whole buffer as it stands; bits in the holder are not in it yet. -/
def buffer (w : BitWriter) : List UInt8 := w.written.toList ++ w.rest

/-- Moves `k` bytes from the holder into the buffer; `none` if the buffer ends before that. -/
def emit : Nat → BitWriter → Option BitWriter
  | 0, w => some w
  | k + 1, ⟨written, rest, holder, held⟩ =>
    match rest with
    | [] => none
    | _ :: rest => emit k ⟨written.push holder.toUInt8, rest, holder >>> 8, held - 8⟩

/-- Writes the `n` low bits of `value`, or nothing if the buffer has no room for them. -/
def put (n value : Nat) : EStateM Error BitWriter Unit := do
  if 32 < n then throw (.fault .wideField)
  let w ← get
  if w.rest.length < (w.held + n + 7) / 8 then throw .insufficientOutput
  let field := (UInt64.ofNat value &&& lowMask n) <<< UInt64.ofNat w.held
  let held := w.held + n
  match emit (held / 8) { w with holder := w.holder ||| field, held } with
  | some w' => set w'
  | none => throw (.fault .outOfRange)

/-- Fills the last byte up with the low bits of `value`. -/
def padByte (value : Nat) : EStateM Error BitWriter Unit := do
  let w ← get
  put ((8 - w.held % 8) % 8) value

/-- Fills the last byte up with zeros. -/
def flush : EStateM Error BitWriter Unit := padByte 0

/-- Fills the last byte up and returns all bytes written. -/
def finish : EStateM Error BitWriter (List UInt8) := do
  flush
  let w ← get
  return w.written.toList

end BitWriter
end DeflateHeader
