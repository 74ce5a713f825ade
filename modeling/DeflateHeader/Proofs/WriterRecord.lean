import DeflateHeader.Proofs.CheckedBits

/-!
# A writer is a bounded list of bits

The state of a writer is spread over the bytes of the buffer that are written, those that are not, a
word for the bits between them and the number of bits in it. `Step.run` is a step of a writer,
`Step.append` the same step of a mere list of bits that may only grow up to a length.

`Appends b (ofBuffer buffer)` is the relation between the two. One step keeps it and has the same
answer on both sides (`Step.run_of_appends`), so any steps in a row have, also if some of them fail.
What a writer shows is decided by the list (`Records`): the buffer, what fits, and what `finish`
returns. Neither does a step lose a bit in a machine word (`observed_records`).
-/

namespace DeflateHeader

namespace Checked

/-- Bytes that hold a written bit. -/
def size (w : BitWriter) : Option Nat := add 64 w.written.size ((w.held + 7) / 8)

/-- Fills the last byte up with the low bits of `value`. -/
def padByte (value : Nat) : EStateM Error BitWriter Unit := do
  let w ← get
  let missing ← sub 8 (w.held % 8)
  put (missing % 8) value

/-- Fills the last byte up and returns the part of the buffer that is written. -/
def finish : EStateM Error BitWriter (List UInt8) := do
  padByte 0
  let w ← get
  front w.buffer w.written.size

variable {w : BitWriter}

theorem size_eq (h : w.Spare 0) : size w = some w.size := by
  have hlt := h.bitCount_lt
  rw [BitWriter.bitCount] at hlt
  rw [size, add_eq (by omega), BitWriter.size]

theorem padByte_eq (value : Nat) (h : w.Spare 0) : padByte value w = BitWriter.padByte value w := by
  unfold padByte BitWriter.padByte
  rw [run_bind_ok run_get, run_bind_ok run_get, run_lift (sub_eq (by omega)), put_eq _ _ h]

theorem finish_eq (h : w.Spare 0) : finish w = BitWriter.finish w := by
  unfold finish BitWriter.finish BitWriter.flush
  refine run_bind_congr (padByte_eq 0 h) fun _ w' _ => ?_
  have hlen : w'.written.size ≤ w'.buffer.length := by simp [BitWriter.buffer]
  have hfront : w'.buffer.take w'.written.size = w'.written.toList := List.take_left
  rw [run_bind_ok run_get, run_bind_ok run_get, front_eq hlen, hfront]
  rfl

end Checked

namespace BitWriter

/-! ## Steps -/

/-- A step of a writer. -/
inductive Step
  | put (n value : Nat)
  | padByte (value : Nat)
  | flush
  deriving DecidableEq, Repr

namespace Step

/-- What may be asked of a writer: fields of at most 32 bits. -/
def Allowed : Step → Prop
  | put n _ => n ≤ 32
  | padByte _ | flush => True

instance : (step : Step) → Decidable step.Allowed
  | put n _ => inferInstanceAs (Decidable (n ≤ 32))
  | padByte _ | flush => inferInstanceAs (Decidable True)

/-- The step of a writer. -/
def run : Step → EStateM Error BitWriter Unit
  | put n value => BitWriter.put n value
  | padByte value => BitWriter.padByte value
  | flush => BitWriter.flush

/-- The step in machine words. -/
def checkedRun : Step → EStateM Error BitWriter Unit
  | put n value => Checked.put n value
  | padByte value => Checked.padByte value
  | flush => Checked.padByte 0

/-- The step of a list of bits in a buffer of `capacity` bytes. -/
def append (capacity : Nat) : Step → EStateM Error (List Bool) Unit
  | put n value => do
    if 8 * capacity < (← get).length + n then throw .insufficientOutput
    modify (· ++ Bits.ofNat n value)
  | padByte value => modify fun b => b ++ Bits.ofNat (padding b.length) value
  | flush => modify fun b => b ++ List.replicate (padding b.length) false

end Step

/-! ## The list of a writer -/

variable {buffer : List UInt8} {b : List Bool} {w : BitWriter}

/-- What a writer into `buffer` shows that has accepted the bits `b`: its counts are those of the list,
the buffer has the full bytes of the list and after them the bytes that it had before, the holder has the
bits in between and no others, a field is written if it fits and otherwise nothing happens, and the last
byte can be filled up at any time. -/
structure Records (buffer : List UInt8) (b : List Bool) (w : BitWriter) : Prop where
  length_le : b.length ≤ 8 * buffer.length
  bitCount_eq : w.bitCount = b.length
  size_eq : w.size = (b.length + 7) / 8
  length_buffer : w.buffer.length = buffer.length
  full_bytes : Bits.ofBytes (w.buffer.take (b.length / 8)) = b.take (8 * (b.length / 8))
  later_bytes : w.buffer.drop (b.length / 8) = buffer.drop (b.length / 8)
  held_eq : w.held = b.length % 8
  holder_eq : w.holder.toNat = Bits.toNat (b.drop (8 * (b.length / 8)))
  put_ok : ∀ n value, n ≤ 32 → b.length + n ≤ 8 * buffer.length →
    ∃ w', put n value w = .ok () w' ∧ w'.bits = b ++ Bits.ofNat n value
  put_error : ∀ n value, n ≤ 32 → 8 * buffer.length < b.length + n →
    put n value w = .error .insufficientOutput w
  padByte_ok : ∀ value, ∃ w', padByte value w = .ok () w' ∧
    w'.bits = b ++ Bits.ofNat (padding b.length) value
  finish_ok : ∃ bytes w', finish w = .ok bytes w' ∧ bytes.length = (b.length + 7) / 8 ∧
    Bits.ofBytes bytes = b ++ List.replicate (padding b.length) false

theorem bits_of_appends (h : Appends b (ofBuffer buffer) w) : w.bits = b := by
  rw [h.bits_eq, bits_ofBuffer, List.nil_append]

theorem bitCount_of_appends (h : Appends b (ofBuffer buffer) w) : w.bitCount = b.length := by
  rw [← length_bits, bits_of_appends h]

theorem room_of_appends (h : Appends b (ofBuffer buffer) w) :
    w.room + b.length = 8 * buffer.length := by
  rw [h.room_eq, room_ofBuffer]

/-- The full bytes of the list are written, and the other bits held. -/
theorem counts_of_appends (h : Appends b (ofBuffer buffer) w) :
    w.written.size = b.length / 8 ∧ w.held = b.length % 8 := by
  have hcount := bitCount_of_appends h
  have hheld := h.wellFormed.held_lt
  rw [bitCount] at hcount
  omega

theorem Records.of_appends (h : Appends b (ofBuffer buffer) w) : Records buffer b w := by
  have hw := h.wellFormed
  have hbits := bits_of_appends h
  have hcount := bitCount_of_appends h
  have hroom := room_of_appends h
  obtain ⟨hsize, hheld⟩ := counts_of_appends h
  have hrest : w.rest = buffer.drop (b.length / 8) := by
    rw [h.rest_eq, hsize]
    rfl
  have hwritten : (Bits.ofBytes w.written.toList).length = 8 * (b.length / 8) := by
    rw [Bits.length_ofBytes, Array.length_toList, hsize]
  have hfull : w.bits.take (8 * (b.length / 8)) = Bits.ofBytes w.written.toList :=
    List.take_left' hwritten
  have hpending : w.bits.drop (8 * (b.length / 8)) = Bits.ofNat w.held w.holder.toNat :=
    List.drop_left' hwritten
  rw [hbits] at hfull hpending
  refine ⟨by omega, hcount, by rw [size]; omega, ?_, ?_, ?_, hheld, ?_, fun n v hn hfit => ?_,
    fun n v hn hfull => ?_, fun v => ?_, ?_⟩
  · rw [BitWriter.buffer, hrest, List.length_append, List.length_drop, Array.length_toList, hsize]
    omega
  · rw [BitWriter.buffer, List.take_left' (by rw [Array.length_toList, hsize]), hfull]
  · rw [BitWriter.buffer, List.drop_left' (by rw [Array.length_toList, hsize]), hrest]
  · rw [hpending, Bits.toNat_ofNat, Nat.mod_eq_of_lt hw.holder_lt]
  · obtain ⟨w', hput, ha⟩ := BitWriter.put_ok (v := v) hw hn (by omega)
    exact ⟨w', hput, hbits ▸ ha.bits_eq⟩
  · exact BitWriter.put_error hw hn (by omega)
  · obtain ⟨w', hpad, ha⟩ := BitWriter.padByte_ok hw v
    exact ⟨w', hpad, by rw [ha.bits_eq, hbits, hcount]⟩
  · obtain ⟨bytes, w', hfinish, hbytes⟩ := BitWriter.finish_ok hw
    rw [hbits, hcount] at hbytes
    refine ⟨bytes, w', hfinish, ?_, hbytes⟩
    have hlen := congrArg List.length hbytes
    rw [Bits.length_ofBytes, List.length_append, List.length_replicate, padding] at hlen
    omega

/-- An allowed step has the same answer on a writer and on its list, and leaves the writer with the new
list. -/
theorem Step.run_of_appends {step : Step} (h : Appends b (ofBuffer buffer) w) (ha : step.Allowed) :
    outcome (step.run w) = outcome (step.append buffer.length b) ∧
      Appends (finalState (step.append buffer.length b)) (ofBuffer buffer)
        (finalState (step.run w)) := by
  have hw := h.wellFormed
  have hcount := bitCount_of_appends h
  have hroom := room_of_appends h
  cases step with
  | put n value =>
    by_cases hfit : b.length + n ≤ 8 * buffer.length
    · obtain ⟨w', hput, happ⟩ := BitWriter.put_ok (v := value) hw ha (by omega)
      have hlist : (Step.put n value).append buffer.length b = .ok () (b ++ Bits.ofNat n value) := by
        simp [append, run_bind, Nat.not_lt.mpr hfit]
      rw [run, hput, hlist]
      exact ⟨rfl, h.trans happ⟩
    · have hlist : (Step.put n value).append buffer.length b = .error .insufficientOutput b := by
        simp [append, run_bind, Nat.lt_of_not_le hfit]
      rw [run, BitWriter.put_error hw ha (by omega), hlist]
      exact ⟨rfl, h⟩
  | padByte value =>
    obtain ⟨w', hpad, happ⟩ := BitWriter.padByte_ok hw value
    rw [hcount] at happ
    rw [run, hpad]
    exact ⟨rfl, h.trans happ⟩
  | flush =>
    obtain ⟨w', hpad, happ⟩ := BitWriter.padByte_ok hw 0
    rw [hcount, Bits.ofNat_eq_replicate] at happ
    rw [run, BitWriter.flush, hpad]
    exact ⟨rfl, h.trans happ⟩

/-! ## Machine words -/

/-- The bits in a buffer of less than `2 ^ 61` bytes can be counted. -/
theorem spare_of_appends (hb : 8 * buffer.length < 2 ^ 64) (h : Appends b (ofBuffer buffer) w) :
    w.Spare 0 := by
  have hcount := bitCount_of_appends h
  have hroom := room_of_appends h
  exact ⟨h.wellFormed, by omega⟩

theorem Step.checkedRun_eq (step : Step) (h : w.Spare 0) : step.checkedRun w = step.run w := by
  cases step with
  | put n value => exact Checked.put_eq n value h
  | padByte value => exact Checked.padByte_eq value h
  | flush => exact Checked.padByte_eq 0 h

theorem observed_checkedRun {steps : List Step} (hb : 8 * buffer.length < 2 ^ 64)
    (ha : ∀ step ∈ steps, step.Allowed) :
    observed Step.checkedRun steps (ofBuffer buffer) = observed Step.run steps (ofBuffer buffer) := by
  obtain ⟨answers, w, _, hrun, hchecked, rfl, -⟩ := observed_alike (x := Step.run)
    (y := Step.checkedRun) (R := fun w w' => w' = w ∧ ∃ b, Appends b (ofBuffer buffer) w)
    ⟨rfl, [], .refl (wellFormed_ofBuffer buffer)⟩ fun step hmem w w' hw => by
      obtain ⟨rfl, b, hw⟩ := hw
      rw [step.checkedRun_eq (spare_of_appends hb hw)]
      exact ⟨rfl, rfl, _, (Step.run_of_appends hw (ha step hmem)).2⟩
  rw [hchecked, hrun]

/-- Any steps of a writer in a row, of which each field has at most 32 bits, have the answers that a list
of bits has which may grow to the length of the buffer, and afterwards the writer records this list.
Unless the bits of the buffer are too many to be counted, none of the steps overflows. -/
theorem observed_records (buffer : List UInt8) {steps : List Step}
    (ha : ∀ step ∈ steps, step.Allowed) :
    ∃ answers b w, observed (Step.append buffer.length) steps [] = .ok answers b ∧
      observed Step.run steps (ofBuffer buffer) = .ok answers w ∧ Records buffer b w ∧
      (8 * buffer.length < 2 ^ 64 →
        observed Step.checkedRun steps (ofBuffer buffer) = .ok answers w ∧
        Checked.bitCount w = some b.length ∧ Checked.size w = some ((b.length + 7) / 8) ∧
        Checked.finish w = finish w) := by
  obtain ⟨answers, b, w, hlist, hrun, hw⟩ := observed_alike (x := Step.append buffer.length)
    (y := Step.run) (R := fun b w => Appends b (ofBuffer buffer) w)
    (.refl (wellFormed_ofBuffer buffer)) fun step hmem b w hw =>
      Step.run_of_appends hw (ha step hmem)
  have hrecords : Records buffer b w := .of_appends hw
  refine ⟨answers, b, w, hlist, hrun, hrecords, fun hb => ?_⟩
  have hspare := spare_of_appends hb hw
  have hcount : w.bitCount < 2 ^ 64 := hspare.bitCount_lt
  exact ⟨(observed_checkedRun hb ha).trans hrun,
    by rw [Checked.bitCount_eq hcount, hrecords.bitCount_eq],
    by rw [Checked.size_eq hspare, hrecords.size_eq], Checked.finish_eq hspare⟩

/-- The third of three bytes is not touched: a field that does not fit is refused, and the one after
it, of which only five bits are written, does not fill its byte. -/
theorem observed_records_refusal :
    (∀ step ∈ [.put 6 42, .put 19 0, .padByte 1, .put 5 255], Step.Allowed step) ∧
    ∃ w, observed Step.checkedRun [.put 6 42, .put 19 0, .padByte 1, .put 5 255]
        (ofBuffer [170, 170, 170]) =
          .ok [.ok (), .error .insufficientOutput, .ok (), .ok ()] w ∧
      w.bitCount = 13 ∧ w.buffer.drop 1 = [170, 170] ∧
      ∃ bytes w', finish w = .ok bytes w' ∧ Bits.ofBytes bytes = Bits.ofBytes [106, 31] := by
  have ha : ∀ step ∈ [.put 6 42, .put 19 0, .padByte 1, .put 5 255], Step.Allowed step := by decide
  obtain ⟨answers, b, w, hlist, -, hw, hwords⟩ := observed_records [170, 170, 170] ha
  obtain ⟨hchecked, -⟩ := hwords (by decide)
  have hb : observed (Step.append 3) [.put 6 42, .put 19 0, .padByte 1, .put 5 255] [] =
      .ok [.ok (), .error .insufficientOutput, .ok (), .ok ()]
        (Bits.ofNat 6 42 ++ Bits.ofNat 2 1 ++ Bits.ofNat 5 255) := by rfl
  cases hlist.symm.trans hb
  obtain ⟨bytes, w', hfinish, -, hbytes⟩ := hw.finish_ok
  exact ⟨ha, w, hchecked, hw.bitCount_eq, hw.later_bytes, bytes, w', hfinish, hbytes⟩

end BitWriter
end DeflateHeader
