import DeflateHeader.Error

/-!
# Reading bits from a byte string

A `BitReader` takes whole bytes from its input into a 64-bit cache and hands out bits from the
low end of the cache. Reading a field has three steps: `ensure` makes sure that the bits are
cached, `peek` looks at them, `drop` consumes them; `take` does all three. `ensure` is the only
step that can run out of input, and then it changes nothing.

The position in the stream is `consumed`; `remaining` and `offset` are counted from it, however
much happens to be cached.
-/

namespace DeflateHeader

/-- The word whose `n` low bits are set, for `n ≤ 32`. -/
def lowMask (n : Nat) : UInt64 := (1 <<< UInt64.ofNat n) - 1

/-- A position in a byte string, read bit by bit. -/
structure BitReader where
  /-- The bytes that are not yet in the cache. -/
  unread : List UInt8
  /-- How many bytes have been moved into the cache. -/
  pulled : Nat
  /-- The bits that are cached and not consumed, from the least significant one on. -/
  cache : UInt64
  /-- How many bits of the cache are in use. -/
  cached : Nat
  deriving DecidableEq, Repr

namespace BitReader

/-- A reader at the first bit of `bytes`. -/
def ofBytes (bytes : List UInt8) : BitReader := ⟨bytes, 0, 0, 0⟩

/-- Bits consumed since the start. -/
def consumed (r : BitReader) : Nat := 8 * r.pulled - r.cached

/-- Bits that are left, cached or not. -/
def remaining (r : BitReader) : Nat := 8 * r.unread.length + r.cached

/-- Bytes of which at least one bit is consumed. -/
def offset (r : BitReader) : Nat := r.pulled - r.cached / 8

/-- Moves `k` bytes into the cache, above the bits that are there; `none` if fewer are left. -/
def pull : Nat → BitReader → Option BitReader
  | 0, r => some r
  | k + 1, ⟨unread, pulled, cache, cached⟩ =>
    match unread with
    | [] => none
    | byte :: rest =>
      pull k ⟨rest, pulled + 1, cache ||| (byte.toUInt64 <<< UInt64.ofNat cached), cached + 8⟩

/-- Makes sure that `n` bits are cached, with as few further bytes as possible. -/
def ensure (n : Nat) : EStateM Error BitReader Unit := do
  if 32 < n then throw (.fault .wideField)
  let r ← get
  match r.pull ((n - r.cached + 7) / 8) with
  | some r' => set r'
  | none => throw .insufficientInput

/-- The value of the next `n` bits, which must be cached. -/
def peek (n : Nat) : EStateM Error BitReader Nat := do
  let r ← get
  if 32 < n then throw (.fault .wideField)
  if r.cached < n then throw (.fault .uncachedBits)
  return (r.cache &&& lowMask n).toNat

/-- Consumes the next `n` bits, which must be cached. -/
def drop (n : Nat) : EStateM Error BitReader Unit := do
  let r ← get
  if 32 < n then throw (.fault .wideField)
  if r.cached < n then throw (.fault .uncachedBits)
  set { r with cache := r.cache >>> UInt64.ofNat n, cached := r.cached - n }

/-- Reads and consumes the next `n` bits. -/
def take (n : Nat) : EStateM Error BitReader Nat := do
  ensure n
  let value ← peek n
  drop n
  return value

/-- Consumes the bits up to the next byte boundary. They are always cached. -/
def skipToByte : EStateM Error BitReader Unit := do
  let r ← get
  drop (r.cached % 8)

end BitReader
end DeflateHeader
