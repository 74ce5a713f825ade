import DeflateHeader.Proofs.CheckedBits

/-!
# A reader is a position in a bit string

The state of a reader is spread over the bytes that are left, the number of bytes that were pulled,
a cache word and the number of bits in it; many states stand for one position. `Step.run` is a step
of a reader, `Step.move` the same step of a mere position in a bit string, where `ensure` compares
two numbers and `skipToByte` rounds up to a multiple of 8.

`Moves p (ofBytes bytes)` is the relation between the two. One step keeps it and has the same answer
on both sides (`Step.run_of_moves`), so a list of steps has (`transcript_of_moves`), also if some of
them fail. What a reader tells about itself depends on the position alone (`Stands`), and none of its
steps overflows a machine word (`transcript_refines`).
-/

namespace DeflateHeader

namespace Checked

/-- Bits consumed by a reader. -/
def consumed (r : BitReader) : Option Nat := do
  let bits ← mul 64 r.pulled 8
  sub bits r.cached

/-- Bytes of which a reader has consumed at least one bit. -/
def offset (r : BitReader) : Option Nat := sub r.pulled (r.cached / 8)

/-- Consumes the bits up to the next byte boundary. -/
def skipToByte : EStateM Error BitReader Unit := do
  let r ← get
  drop (r.cached % 8)

theorem consumed_eq {r : BitReader} (h : r.Bounded) : consumed r = some r.consumed := by
  have hlen := h.length_lt
  have hle := h.wellFormed.cached_le_pulled
  rw [consumed, mul_eq (by omega)]
  simp only [Option.bind_eq_bind, Option.bind_some]
  rw [sub_eq (by omega), BitReader.consumed, Nat.mul_comm]

theorem offset_eq {r : BitReader} (h : r.Bounded) : offset r = some r.offset := by
  have hle := h.wellFormed.cached_le_pulled
  rw [offset, sub_eq (by omega), BitReader.offset]

theorem skipToByte_eq : skipToByte = BitReader.skipToByte := by
  unfold skipToByte BitReader.skipToByte
  simp only [drop_eq]

end Checked

namespace BitReader

/-! ## Steps -/

/-- A step of a reader. -/
inductive Step
  | ensure (n : Nat)
  | peek (n : Nat)
  | drop (n : Nat)
  | skipToByte
  deriving DecidableEq, Repr

namespace Step

/-- What may be asked of a reader: fields of at most 32 bits, to be looked at and consumed once they
are cached. -/
def Allowed (r : BitReader) : Step → Prop
  | ensure n => n ≤ 32
  | peek n | drop n => n ≤ min 32 r.cached
  | skipToByte => True

instance (r : BitReader) : (step : Step) → Decidable (step.Allowed r)
  | ensure n => inferInstanceAs (Decidable (n ≤ 32))
  | peek n | drop n => inferInstanceAs (Decidable (n ≤ min 32 r.cached))
  | skipToByte => inferInstanceAs (Decidable True)

/-- The step of a reader, with the value that it shows. -/
def run : Step → EStateM Error BitReader (Option Nat)
  | ensure n => do BitReader.ensure n; return none
  | peek n => do return some (← BitReader.peek n)
  | drop n => do BitReader.drop n; return none
  | skipToByte => do BitReader.skipToByte; return none

/-- The step in machine words. -/
def checkedRun : Step → EStateM Error BitReader (Option Nat)
  | ensure n => do Checked.ensure n; return none
  | peek n => do return some (← Checked.peek n)
  | drop n => do Checked.drop n; return none
  | skipToByte => do Checked.skipToByte; return none

/-- The step of a position in a bit string. -/
def move (bits : List Bool) : Step → EStateM Error Nat (Option Nat)
  | ensure n => do
    if bits.length < (← get) + n then throw .insufficientInput
    return none
  | peek n => do return some (Bits.toNat ((bits.drop (← get)).take n))
  | drop n => do modify (· + n); return none
  | skipToByte => do modify fun p => 8 * ((p + 7) / 8); return none

end Step

/-- The answers to a list of steps and the state after them; a step that fails does not end it. -/
def transcript {σ : Type} (act : Step → EStateM Error σ (Option Nat)) :
    List Step → σ → List (Except Error (Option Nat)) × σ
  | [], s => ([], s)
  | step :: steps, s =>
    let (answers, s') := transcript act steps (finalState (act step s))
    (outcome (act step s) :: answers, s')

/-- A list of steps each of which is allowed when its turn comes. -/
def AllAllowed : List Step → BitReader → Prop
  | [], _ => True
  | step :: steps, r => step.Allowed r ∧ AllAllowed steps (finalState (step.run r))

instance decidableAllAllowed : (steps : List Step) → (r : BitReader) →
    Decidable (AllAllowed steps r)
  | [], _ => inferInstanceAs (Decidable True)
  | step :: steps, r =>
    have := decidableAllAllowed steps (finalState (step.run r))
    inferInstanceAs (Decidable (_ ∧ _))

/-! ## The position of a reader -/

variable {bytes : List UInt8} {p : Nat} {r : BitReader}

/-- What a reader at the bit `p` of `bytes` tells about itself, whatever it has cached: its counts are
those of the position, and it fills its cache just if the bits are there. -/
structure Stands (bytes : List UInt8) (p : Nat) (r : BitReader) : Prop where
  le_length : p ≤ 8 * bytes.length
  consumed_eq : r.consumed = p
  remaining_eq : r.remaining = 8 * bytes.length - p
  offset_eq : r.offset = (p + 7) / 8
  cached_le : r.cached ≤ 39
  cache_lt : r.cache.toNat < 2 ^ r.cached
  ensure_ok : ∀ n, n ≤ 32 → p + n ≤ 8 * bytes.length →
    ∃ r', ensure n r = .ok () r' ∧ r'.consumed = p ∧ n ≤ r'.cached
  ensure_error : ∀ n, n ≤ 32 → 8 * bytes.length < p + n →
    ensure n r = .error .insufficientInput r

theorem remaining_of_moves (h : Moves p (ofBytes bytes) r) :
    p ≤ 8 * bytes.length ∧ r.remaining = 8 * bytes.length - p := by
  have hstart : (ofBytes bytes).remaining = 8 * bytes.length := rfl
  exact ⟨hstart ▸ h.le_remaining, hstart ▸ h.remaining_eq⟩

theorem offset_of_moves (h : Moves p (ofBytes bytes) r) : r.offset = (p + 7) / 8 := by
  have hle := h.wellFormed.cached_le_pulled
  have hcon := h.consumed_eq
  rw [consumed_ofBytes, consumed] at hcon
  rw [offset]
  omega

theorem Stands.of_moves (h : Moves p (ofBytes bytes) r) : Stands bytes p r := by
  obtain ⟨hle, hrem⟩ := remaining_of_moves h
  have hcon : r.consumed = p := by rw [h.consumed_eq, consumed_ofBytes, Nat.zero_add]
  refine ⟨hle, hcon, hrem, offset_of_moves h, h.wellFormed.cached_le, h.wellFormed.cache_lt,
    fun n hn hfit => ?_, fun n hn hshort => ?_⟩
  · obtain ⟨r', hrun, hm, hc⟩ := BitReader.ensure_ok h.wellFormed hn (by omega)
    exact ⟨r', hrun, by rw [hm.consumed_eq, hcon, Nat.add_zero], hc⟩
  · exact BitReader.ensure_error hn (by omega)

/-- An allowed step has the same answer on a reader and on its position, and leaves the reader at the
new position. -/
theorem Step.run_of_moves {step : Step} (h : Moves p (ofBytes bytes) r) (ha : step.Allowed r) :
    outcome (step.run r) = outcome (step.move (Bits.ofBytes bytes) p) ∧
      Moves (finalState (step.move (Bits.ofBytes bytes) p)) (ofBytes bytes)
        (finalState (step.run r)) := by
  have hw := h.wellFormed
  obtain ⟨hle, hrem⟩ := remaining_of_moves h
  cases step with
  | ensure n =>
    by_cases hfit : p + n ≤ 8 * bytes.length
    · obtain ⟨r', hrun, hm, -⟩ := BitReader.ensure_ok hw ha (by omega)
      have hmove : (Step.ensure n).move (Bits.ofBytes bytes) p = .ok none p := by
        simp [move, run_bind, Nat.not_lt.mpr hfit]
      rw [run, run_bind_ok hrun, hmove]
      exact ⟨rfl, h.trans hm⟩
    · have hmove : (Step.ensure n).move (Bits.ofBytes bytes) p = .error .insufficientInput p := by
        simp [move, run_bind, run_map, Nat.lt_of_not_le hfit]
      rw [run, run_bind_error (BitReader.ensure_error ha (by omega)), hmove]
      exact ⟨rfl, h⟩
  | peek n =>
    obtain ⟨hn, hc⟩ := Nat.le_min.mp ha
    have hmove : (Step.peek n).move (Bits.ofBytes bytes) p =
      .ok (some (Bits.toNat (((Bits.ofBytes bytes).drop p).take n))) p := rfl
    rw [run, run_bind_ok (peek_run hn hc), hmove, h.bits_eq, bits_ofBytes]
    exact ⟨rfl, h⟩
  | drop n =>
    obtain ⟨hn, hc⟩ := Nat.le_min.mp ha
    obtain ⟨r', hrun, hm, -⟩ := drop_run hw hn hc
    rw [run, run_bind_ok hrun]
    exact ⟨rfl, h.trans hm⟩
  | skipToByte =>
    obtain ⟨r', hrun, hm⟩ := skipToByte_run hw
    rw [run, run_bind_ok hrun]
    -- What is cached ends with whole bytes, so the odd bits of it are those before the boundary.
    have hround : 8 * ((p + 7) / 8) = p + r.cached % 8 := by
      have hpulled := hw.cached_le_pulled
      have hcon := h.consumed_eq
      rw [consumed_ofBytes, consumed] at hcon
      omega
    refine ⟨rfl, ?_⟩
    show Moves (8 * ((p + 7) / 8)) (ofBytes bytes) r'
    rw [hround]
    exact h.trans hm

/-- By induction on the steps: each of them has its answer and leads to the next position. -/
theorem transcript_of_moves {steps : List Step} (h : Moves p (ofBytes bytes) r)
    (ha : AllAllowed steps r) :
    ∃ answers p' r', transcript Step.run steps r = (answers, r') ∧
      transcript (Step.move (Bits.ofBytes bytes)) steps p = (answers, p') ∧
      Moves p' (ofBytes bytes) r' := by
  induction steps generalizing p r with
  | nil => exact ⟨[], p, r, rfl, rfl, h⟩
  | cons step steps ih =>
    obtain ⟨hout, hm⟩ := Step.run_of_moves h ha.1
    obtain ⟨answers, p', r', hr, hp, hm'⟩ := ih hm ha.2
    refine ⟨outcome (step.run r) :: answers, p', r', ?_, ?_, hm'⟩
    · rw [transcript, hr]
    · rw [transcript, hp, hout]

/-! ## Machine words -/

theorem Step.checkedRun_eq (step : Step) (h : r.Bounded) : step.checkedRun r = step.run r := by
  cases step with
  | ensure n => exact Checked.run_bind_congr (Checked.ensure_eq n h) fun _ _ _ => rfl
  | peek n => rw [checkedRun, run, Checked.peek_eq]
  | drop n => rw [checkedRun, run, Checked.drop_eq]
  | skipToByte => rw [checkedRun, run, Checked.skipToByte_eq]

theorem keeps_bounded_step (step : Step) : Keeps Bounded step.run := by
  cases step with
  | ensure n => exact keeps_bind (keeps_bounded_ensure n) fun _ => keeps_pure
  | peek n => exact keeps_bind (keeps_bounded_peek n) fun _ => keeps_pure
  | drop n => exact keeps_bind (keeps_bounded_drop n) fun _ => keeps_pure
  | skipToByte =>
    exact keeps_bind (keeps_get_bind fun s hs => keeps_bounded_drop (s.cached % 8) s hs)
      fun _ => keeps_pure

theorem transcript_checkedRun (steps : List Step) (h : r.Bounded) :
    transcript Step.checkedRun steps r = transcript Step.run steps r := by
  induction steps generalizing r with
  | nil => rfl
  | cons step steps ih =>
    rw [transcript, transcript, step.checkedRun_eq h, ih (keeps_bounded_step step r h)]

/-- Any allowed steps of a reader of less than `2 ^ 60` bytes have the answers that a position in the
bits of the bytes has, computed without an overflow, and lead to a reader that stands there. -/
theorem transcript_refines {steps : List Step} (hb : bytes.length < 2 ^ 60)
    (ha : AllAllowed steps (ofBytes bytes)) :
    ∃ answers p r, transcript (Step.move (Bits.ofBytes bytes)) steps 0 = (answers, p) ∧
      transcript Step.run steps (ofBytes bytes) = (answers, r) ∧
      transcript Step.checkedRun steps (ofBytes bytes) = (answers, r) ∧
      Stands bytes p r ∧
      Checked.consumed r = some p ∧ Checked.remaining r = some (8 * bytes.length - p) ∧
      Checked.offset r = some ((p + 7) / 8) := by
  have hbound : (ofBytes bytes).Bounded := Reachable.start.bounded hb
  obtain ⟨answers, p, r, hrun, hmove, hm⟩ :=
    transcript_of_moves (.refl (wellFormed_ofBytes bytes)) ha
  have hr : r.Bounded := hbound.of_moves hm
  have hs : Stands bytes p r := .of_moves hm
  refine ⟨answers, p, r, hmove, hrun, (transcript_checkedRun steps hbound).trans hrun, hs, ?_⟩
  exact ⟨by rw [Checked.consumed_eq hr, hs.consumed_eq],
    by rw [Checked.remaining_eq hr, hs.remaining_eq], by rw [Checked.offset_eq hr, hs.offset_eq]⟩

/-- A partial byte is skipped after it was cached together with the next two, and the last field is
one bit too long. -/
theorem transcript_refines_skip :
    [0xAB, 0x01, 0x80].length < 2 ^ 60 ∧
      AllAllowed [.ensure 17, .peek 3, .drop 3, .skipToByte, .ensure 17, .peek 16]
        (ofBytes [0xAB, 0x01, 0x80]) ∧
      ∃ r, transcript Step.checkedRun [.ensure 17, .peek 3, .drop 3, .skipToByte, .ensure 17, .peek 16]
          (ofBytes [0xAB, 0x01, 0x80]) =
        ([.ok none, .ok (some 3), .ok none, .ok none, .error .insufficientInput, .ok (some 0x8001)], r) ∧
      Checked.offset r = some 1 := by
  have hb : ([0xAB, 0x01, 0x80] : List UInt8).length < 2 ^ 60 := by decide
  have ha : AllAllowed [.ensure 17, .peek 3, .drop 3, .skipToByte, .ensure 17, .peek 16]
      (ofBytes [0xAB, 0x01, 0x80]) := by decide
  obtain ⟨answers, p, r, hmove, -, hrun, -, -, -, hoff⟩ := transcript_refines hb ha
  have hp : transcript (Step.move (Bits.ofBytes [0xAB, 0x01, 0x80]))
      [.ensure 17, .peek 3, .drop 3, .skipToByte, .ensure 17, .peek 16] 0 =
        ([.ok none, .ok (some 3), .ok none, .ok none, .error .insufficientInput,
          .ok (some 0x8001)], 8) := by rfl
  rw [hp] at hmove
  cases hmove
  exact ⟨hb, ha, r, hrun, hoff⟩

end BitReader
end DeflateHeader
