import DeflateHeader.Error

/-!
# Containers around a DEFLATE stream

A stream stands by itself, behind a two-byte zlib header or behind a gzip member header.
`Container.strip` checks such a header and returns what follows it.

A gzip member header has ten fixed bytes and then, each only if its flag is set and in this
order: a counted extra field, a zero-terminated name, a zero-terminated comment and a two-byte
checksum. The parts that only a fully read header could check (the checksum, the time) are not
looked at.
-/

namespace DeflateHeader

/-- What stands around a DEFLATE stream. -/
inductive Container
  | raw
  | zlib
  | gzip
  deriving DecidableEq, Repr

namespace Container

/-- The compression method number of DEFLATE. -/
def deflateMethod : UInt8 := 8

/-- What follows a zlib header. The two bytes, the first one high, are a multiple of 31. -/
def stripZlib : List UInt8 → Except Error (List UInt8)
  | cmf :: flg :: rest =>
    if (256 * cmf.toNat + flg.toNat) % 31 ≠ 0 then
      .error (.invalid (.invalidContainer .zlibCheck))
    else if cmf &&& 0x0F ≠ deflateMethod ∨ 7 < (cmf >>> 4).toNat then
      .error (.invalid (.invalidContainer .zlibMethod))
    else if flg &&& 0x20 ≠ 0 then
      .error (.invalid (.invalidContainer .zlibDictionary))
    else .ok rest
  | _ => .error .insufficientInput

/-- Drops `n` bytes, all of which must be there. -/
def dropExactly (n : Nat) (bytes : List UInt8) : Except Error (List UInt8) :=
  if n ≤ bytes.length then .ok (bytes.drop n) else .error .insufficientInput

/-- Drops a counted field: its length in two bytes, the low one first, and so many bytes. -/
def dropCounted : List UInt8 → Except Error (List UInt8)
  | low :: high :: rest => dropExactly (low.toNat + 256 * high.toNat) rest
  | _ => .error .insufficientInput

/-- Drops everything up to and with the first zero byte. -/
def dropText : List UInt8 → Except Error (List UInt8)
  | [] => .error .insufficientInput
  | byte :: rest => if byte = 0 then .ok rest else dropText rest

/-- Does `drop` if the flag is set and nothing otherwise. -/
def dropIf (flag : Bool) (drop : List UInt8 → Except Error (List UInt8)) (bytes : List UInt8) :
    Except Error (List UInt8) :=
  if flag then drop bytes else .ok bytes

/-- The optional fields of a gzip member header, in the order in which they stand. -/
def dropGzipFields (flags : UInt8) (bytes : List UInt8) : Except Error (List UInt8) := do
  let bytes ← dropIf (flags &&& 0x04 != 0) dropCounted bytes
  let bytes ← dropIf (flags &&& 0x08 != 0) dropText bytes
  let bytes ← dropIf (flags &&& 0x10 != 0) dropText bytes
  dropIf (flags &&& 0x02 != 0) (dropExactly 2) bytes

/-- What follows a gzip member header. -/
def stripGzip : List UInt8 → Except Error (List UInt8)
  | id₁ :: id₂ :: method :: flags :: _ :: _ :: _ :: _ :: _ :: _ :: rest =>
    if id₁ ≠ 0x1F ∨ id₂ ≠ 0x8B then .error (.invalid (.invalidContainer .gzipMagic))
    else if method ≠ deflateMethod then .error (.invalid (.invalidContainer .gzipMethod))
    else if flags &&& 0xE0 ≠ 0 then .error (.invalid (.invalidContainer .gzipReserved))
    else dropGzipFields flags rest
  | _ => .error .insufficientInput

/-- The DEFLATE stream inside `bytes`, and whatever comes after it. -/
def strip : Container → List UInt8 → Except Error (List UInt8)
  | raw, bytes => .ok bytes
  | zlib, bytes => stripZlib bytes
  | gzip, bytes => stripGzip bytes

end Container
end DeflateHeader
