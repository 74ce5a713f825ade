import DeflateHeader.Error

/-!
# Filling a bounded buffer byte by byte

The callers compare their need with `room` before they write; `push` and `orLast` only keep the
contract that a byte lands inside the buffer.
-/

namespace DeflateHeader

/-- A buffer that is filled from its start. -/
structure ByteSink where
  /-- The bytes of the buffer that are written. -/
  written : Array UInt8
  /-- The bytes of the buffer that are still as they were. -/
  rest : List UInt8
  deriving DecidableEq, Repr

namespace ByteSink

/-- A sink at the start of the buffer `bytes`. -/
def ofBuffer (bytes : List UInt8) : ByteSink := ⟨#[], bytes⟩

/-- Bytes that can still be written. -/
def room (s : ByteSink) : Nat := s.rest.length

/-- The whole buffer as it stands. -/
def buffer (s : ByteSink) : List UInt8 := s.written.toList ++ s.rest

/-- Writes the next byte. -/
def push (byte : UInt8) : EStateM Error ByteSink Unit := do
  let s ← get
  match s.rest with
  | [] => throw (.fault .outOfRange)
  | _ :: rest => set (ByteSink.mk (s.written.push byte) rest)

/-- Sets further bits of the byte written last. -/
def orLast (bits : UInt8) : EStateM Error ByteSink Unit := do
  let s ← get
  match s.written.back? with
  | none => throw (.fault .outOfRange)
  | some byte => set (ByteSink.mk (s.written.pop.push (byte ||| bits)) s.rest)

end ByteSink
end DeflateHeader
