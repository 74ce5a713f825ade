import DeflateHeader.Proofs.BitWriting
import DeflateHeader.Proofs.CheckedArithmetic

/-!
# Bits with machine words

The steps of the reader and the writer in checked arithmetic, with the positions in the input and in
the buffer as machine words too. Each step runs like the one it checks: `peek` and `drop` in any
state, `ensure` on a reader of less than `2 ^ 60` bytes (`BitReader.Bounded`), `put` on a writer whose
bits can be counted (`BitWriter.Spare`). The steps of a reader keep it bounded, and each field takes at
most 32 bits from what a writer can count.
-/

namespace DeflateHeader

/-! ## Reading -/

namespace BitReader

/-- A well-formed reader of less than 2 ^ 60 bytes, at any position. -/
structure Bounded (r : BitReader) : Prop where
  wellFormed : r.WellFormed
  length_lt : r.pulled + r.unread.length < 2 ^ 60

variable {r r' : BitReader}

/-- Moving in a stream changes neither the bytes nor their number. -/
theorem Bounded.of_moves {n : Nat} (h : r.Bounded) (hm : r.Moves n r') : r'.Bounded := by
  have hle := h.wellFormed.cached_le_pulled
  have hle' := hm.wellFormed.cached_le_pulled
  have hlt := h.length_lt
  have hn := hm.le_remaining
  have hrem := hm.remaining_eq
  have hcon := hm.consumed_eq
  simp only [remaining, consumed] at hn hrem hcon
  exact ⟨hm.wellFormed, by omega⟩

theorem keeps_bounded_ensure (n : Nat) : Keeps Bounded (ensure n) := fun _ hr =>
  hr.of_moves (moves_ensure hr.wellFormed n)

theorem keeps_bounded_peek (n : Nat) : Keeps Bounded (peek n) := by
  refine keeps_get_bind fun r hr => ?_
  by_cases hn : 32 < n
  · simpa [hn, run_bind] using hr
  · by_cases hc : r.cached < n <;> simpa [hn, hc, run_bind, run_map] using hr

theorem keeps_bounded_drop (n : Nat) : Keeps Bounded (drop n) := fun r hr => by
  obtain ⟨m, hm⟩ := moves_drop hr.wellFormed n
  exact hr.of_moves hm

theorem keeps_bounded_take (n : Nat) : Keeps Bounded (take n) :=
  keeps_bind (keeps_bounded_ensure n) fun _ => keeps_bind (keeps_bounded_peek n) fun _ =>
    keeps_bind (keeps_bounded_drop n) fun _ => keeps_pure

/-- The readers of a byte string are bounded if it is. -/
theorem Reachable.bounded {bytes : List UInt8} (h : Reachable bytes r) (hb : bytes.length < 2 ^ 60) :
    r.Bounded := by
  have hstart : (ofBytes bytes).Bounded :=
    ⟨wellFormed_ofBytes bytes, by simpa [ofBytes] using hb⟩
  exact hstart.of_moves h.moves

end BitReader

/-! ## Writing -/

namespace BitWriter

/-- A well-formed writer that can count `n` more bits. -/
structure Spare (n : Nat) (w : BitWriter) : Prop where
  wellFormed : w.WellFormed
  bitCount_lt : w.bitCount + n < 2 ^ 64

variable {w w' : BitWriter}

theorem Spare.mono {m n : Nat} (h : w.Spare n) (hle : m ≤ n) : w.Spare m :=
  ⟨h.wellFormed, Nat.lt_of_le_of_lt (Nat.add_le_add_left hle _) h.bitCount_lt⟩

theorem Spare.of_appends {n : Nat} {bs : List Bool} (h : w.Spare (n + bs.length))
    (ha : w.Appends bs w') : w'.Spare n := by
  have hlt := h.bitCount_lt
  have hcount := ha.bitCount_eq
  exact ⟨ha.wellFormed, by omega⟩

/-- A field takes up to 32 bits of what can be counted. -/
theorem Spare.put {k n v : Nat} {u : Unit} (h : w.Spare (n + 32))
    (hrun : BitWriter.put k v w = .ok u w') : w'.Spare n := by
  by_cases hk : k ≤ 32
  · refine Spare.of_appends (h.mono ?_) (put_inv h.wellFormed hk hrun)
    rw [Bits.length_ofNat]
    exact Nat.add_le_add_left hk n
  · have hwide : BitWriter.put k v w = .error (.fault .wideField) w := by
      simp [BitWriter.put, run_bind, Nat.lt_of_not_le hk]
    rw [hwide] at hrun
    cases hrun

end BitWriter

namespace Checked

/-! ## The steps of a reader -/

/-- The mask of the `n` low bits. -/
def lowMask (n : Nat) : Option Nat := do
  let bit ← shl 64 1 n
  sub bit 1

theorem lowMask_eq {n : Nat} (h : n ≤ 32) : lowMask n = some (2 ^ n - 1) := by
  have hn : n < 64 := Nat.lt_of_le_of_lt h (by decide)
  rw [lowMask, shl_one_eq hn]
  exact sub_eq Nat.one_le_two_pow

/-- The bits that are left to a reader. -/
def remaining (r : BitReader) : Option Nat := do
  let bytes ← sub (r.pulled + r.unread.length) r.pulled
  let bits ← mul 64 bytes 8
  add 64 bits r.cached

/-- Pulls bytes into the cache until it has `n` bits; nothing if the bytes end before. -/
def fill (n pulled : Nat) (cache : UInt64) (cached : Nat) : List UInt8 → Option BitReader
  | [] => if n ≤ cached then some ⟨[], pulled, cache, cached⟩ else none
  | byte :: rest =>
    if n ≤ cached then some ⟨byte :: rest, pulled, cache, cached⟩
    else do
      let bits ← shl 64 byte.toNat cached
      let pulled ← add 64 pulled 1
      let cached ← add 32 cached 8
      fill n pulled (cache ||| UInt64.ofNat bits) cached rest

/-- Makes sure that `n` bits are cached. -/
def ensure (n : Nat) : EStateM Error BitReader Unit := do
  if 32 < n then throw (.fault .wideField)
  let r ← get
  let left ← remaining r
  if left < n then throw .insufficientInput
  let r' ← fill n r.pulled r.cache r.cached r.unread
  set r'

/-- The value of the next `n` bits. -/
def peek (n : Nat) : EStateM Error BitReader Nat := do
  let r ← get
  if 32 < n then throw (.fault .wideField)
  if r.cached < n then throw (.fault .uncachedBits)
  let mask ← lowMask n
  return (r.cache.toNat &&& mask) % 2 ^ 32

/-- Consumes the next `n` bits. -/
def drop (n : Nat) : EStateM Error BitReader Unit := do
  let r ← get
  if 32 < n then throw (.fault .wideField)
  if r.cached < n then throw (.fault .uncachedBits)
  let cache ← shr 64 r.cache.toNat n
  let cached ← sub r.cached n
  set { r with cache := UInt64.ofNat cache, cached }

/-- Reads and consumes the next `n` bits. -/
def take (n : Nat) : EStateM Error BitReader Nat := do
  ensure n
  let value ← peek n
  drop n
  return value

variable {n : Nat} {r : BitReader}

theorem remaining_eq (h : r.Bounded) : remaining r = some r.remaining := by
  have hlen := h.length_lt
  have hc := h.wellFormed.cached_le
  rw [remaining, sub_eq (Nat.le_add_right _ _), Nat.add_sub_cancel_left]
  simp only [Option.bind_eq_bind, Option.bind_some]
  rw [mul_eq (by omega), Option.bind_some, add_eq (by omega), BitReader.remaining, Nat.mul_comm]

/-- By induction on the bytes that are left: each round of the loop pulls one of them. -/
theorem fill_eq (hn : n ≤ 32) {unread : List UInt8} {pulled cached : Nat} {cache : UInt64}
    (h : pulled + unread.length < 2 ^ 64) :
    fill n pulled cache cached unread =
      BitReader.pull ((n - cached + 7) / 8) ⟨unread, pulled, cache, cached⟩ := by
  induction unread generalizing pulled cached cache with
  | nil =>
    rw [fill]
    split
    · rw [show (n - cached + 7) / 8 = 0 by omega, BitReader.pull]
    · rw [show (n - cached + 7) / 8 = (n - cached + 7) / 8 - 1 + 1 by omega, BitReader.pull]
  | cons byte rest ih =>
    rw [List.length_cons] at h
    rw [fill]
    split
    · rw [show (n - cached + 7) / 8 = 0 by omega, BitReader.pull]
    · have hbyte : byte.toNat < 2 ^ 8 := byte.toNat_lt
      have hfits : byte.toNat <<< cached < 2 ^ 64 := by
        rw [Nat.shiftLeft_eq]
        calc byte.toNat * 2 ^ cached < 2 ^ 8 * 2 ^ cached :=
              Nat.mul_lt_mul_of_pos_right hbyte (Nat.two_pow_pos _)
          _ = 2 ^ (8 + cached) := (Nat.pow_add 2 8 cached).symm
          _ ≤ 2 ^ 64 := Nat.pow_le_pow_right (by decide) (by omega)
      have hbits : UInt64.ofNat (byte.toNat <<< cached) = byte.toUInt64 <<< UInt64.ofNat cached := by
        apply UInt64.toNat_inj.mp
        have hmod : cached % 2 ^ 64 % 64 = cached := by omega
        rw [UInt64.toNat_shiftLeft, UInt64.toNat_ofNat', UInt64.toNat_ofNat', hmod,
          UInt8.toNat_toUInt64]
      simp only [Option.bind_eq_bind]
      rw [shl_eq (by omega) hfits, Option.bind_some, add_eq (by omega), Option.bind_some,
        add_eq (by omega), Option.bind_some, hbits, ih (by omega),
        show (n - cached + 7) / 8 = (n - (cached + 8) + 7) / 8 + 1 by omega, BitReader.pull]

/-- The check of what is left is the one that `ensure` makes by pulling. -/
theorem ensure_eq (n : Nat) (h : r.Bounded) : ensure n r = BitReader.ensure n r := by
  have hw := h.wellFormed
  by_cases hn : 32 < n
  · simp [ensure, BitReader.ensure, hn, run_bind]
  · have hle : n ≤ 32 := Nat.le_of_not_lt hn
    have hlen := h.length_lt
    have hfill : fill n r.pulled r.cache r.cached r.unread =
        r.pull ((n - r.cached + 7) / 8) := fill_eq hle (by omega)
    by_cases hlt : r.remaining < n
    · rw [BitReader.ensure_error hle hlt]
      simp [ensure, hn, run_bind, remaining_eq h, hlt]
    · have hc := hw.cached_le
      obtain ⟨r', hp, -⟩ := BitReader.pull_eq_some (k := (n - r.cached + 7) / 8) hw.cache_lt
        (by omega) (by simp only [BitReader.remaining] at hlt; omega)
      simp [ensure, BitReader.ensure, run_bind, hn, remaining_eq h, hlt, hfill, hp]

theorem peek_eq (n : Nat) : peek n = BitReader.peek n := by
  funext r
  by_cases hn : 32 < n
  · simp [peek, BitReader.peek, hn, run_bind]
  · by_cases hc : r.cached < n
    · simp [peek, BitReader.peek, hn, hc, run_bind, run_map]
    · have hle : n ≤ 32 := Nat.le_of_not_lt hn
      have hlt : r.cache.toNat % 2 ^ n < 2 ^ 32 :=
        Nat.lt_of_lt_of_le (Nat.mod_lt _ (Nat.two_pow_pos n)) (Nat.pow_le_pow_right (by decide) hle)
      simpa [peek, BitReader.peek, hn, hc, run_bind, lowMask_eq hle, toNat_lowMask hle] using hlt

theorem drop_eq (n : Nat) : drop n = BitReader.drop n := by
  funext r
  by_cases hn : 32 < n
  · simp [drop, BitReader.drop, hn, run_bind]
  · by_cases hc : r.cached < n
    · simp [drop, BitReader.drop, hn, hc, run_bind]
    · have hshift : UInt64.ofNat (r.cache.toNat >>> n) = r.cache >>> UInt64.ofNat n := by
        apply UInt64.toNat_inj.mp
        have hmod : n % 2 ^ 64 % 64 = n := by omega
        have hlt : r.cache.toNat >>> n < 2 ^ 64 :=
          Nat.lt_of_le_of_lt (Nat.shiftRight_le _ _) r.cache.toNat_lt
        rw [UInt64.toNat_shiftRight, UInt64.toNat_ofNat', UInt64.toNat_ofNat', hmod,
          Nat.mod_eq_of_lt hlt]
      have hshr : shr 64 r.cache.toNat n = some (r.cache.toNat >>> n) := shr_eq (by omega)
      simp [drop, BitReader.drop, hn, hc, run_bind, hshr, sub_eq (Nat.le_of_not_lt hc), hshift]

theorem take_eq (n : Nat) (h : r.Bounded) : take n r = BitReader.take n r := by
  unfold take BitReader.take
  rw [peek_eq, drop_eq]
  exact run_bind_congr (ensure_eq n h) fun _ _ _ => rfl

/-! ## The steps of a writer -/

/-- Moves the full bytes of the holder into the buffer; nothing if the buffer ends before. -/
def emit (written : Array UInt8) (holder : UInt64) (held : Nat) : List UInt8 → Option BitWriter
  | [] => if held < 8 then some ⟨written, [], holder, held⟩ else none
  | byte :: rest =>
    if held < 8 then some ⟨written, byte :: rest, holder, held⟩
    else do
      let _ ← add 64 written.size 1
      let shifted ← shr 64 holder.toNat 8
      let left ← sub held 8
      emit (written.push holder.toUInt8) (UInt64.ofNat shifted) left rest

/-- Writes the `n` low bits of `value`. -/
def put (n value : Nat) : EStateM Error BitWriter Unit := do
  if 32 < n then throw (.fault .wideField)
  let w ← get
  let held ← add 32 w.held n
  let last ← add 64 w.written.size ((held + 7) / 8)
  if w.written.size + w.rest.length < last then throw .insufficientOutput
  let mask ← lowMask n
  let field ← shl 64 (value &&& mask) w.held
  let w' ← emit w.written (w.holder ||| UInt64.ofNat field) held w.rest
  set w'

/-- Bits written since the start. -/
def bitCount (w : BitWriter) : Option Nat := do
  let bits ← mul 64 w.written.size 8
  add 64 bits w.held

theorem bitCount_eq {w : BitWriter} (h : w.bitCount < 2 ^ 64) : bitCount w = some w.bitCount := by
  rw [BitWriter.bitCount] at h
  rw [bitCount, mul_eq (by omega)]
  simp only [Option.bind_eq_bind, Option.bind_some]
  rw [add_eq (by omega), BitWriter.bitCount, Nat.mul_comm]

/-- By induction on the bytes of the buffer that are left: each round of the loop fills one. -/
theorem emit_eq {written : Array UInt8} {holder : UInt64} {held : Nat} {rest : List UInt8}
    (h : written.size + held / 8 < 2 ^ 64) :
    emit written holder held rest = BitWriter.emit (held / 8) ⟨written, rest, holder, held⟩ := by
  induction rest generalizing written holder held with
  | nil =>
    rw [emit]
    split
    · rw [show held / 8 = 0 by omega, BitWriter.emit]
    · rw [show held / 8 = held / 8 - 1 + 1 by omega, BitWriter.emit]
  | cons byte rest ih =>
    rw [emit]
    split
    · rw [show held / 8 = 0 by omega, BitWriter.emit]
    · have hshift : UInt64.ofNat (holder.toNat >>> 8) = holder >>> 8 := by
        apply UInt64.toNat_inj.mp
        have hlt : holder.toNat >>> 8 < 2 ^ 64 :=
          Nat.lt_of_le_of_lt (Nat.shiftRight_le _ _) holder.toNat_lt
        rw [UInt64.toNat_ofNat', Nat.mod_eq_of_lt hlt, UInt64.toNat_shiftRight]
        rfl
      simp only [Option.bind_eq_bind]
      rw [add_eq (by omega), Option.bind_some, shr_eq (by omega), Option.bind_some,
        sub_eq (by omega), Option.bind_some, hshift, ih (by rw [Array.size_push]; omega),
        show held / 8 = (held - 8) / 8 + 1 by omega, BitWriter.emit]

theorem put_eq (n value : Nat) {w : BitWriter} (hspare : w.Spare 0) :
    put n value w = BitWriter.put n value w := by
  have hw := hspare.wellFormed.held_lt
  have h := hspare.bitCount_lt
  rw [BitWriter.bitCount] at h
  by_cases hn : 32 < n
  · simp [put, BitWriter.put, hn, run_bind]
  · have hle : n ≤ 32 := Nat.le_of_not_lt hn
    have hv : value % 2 ^ n < 2 ^ n := Nat.mod_lt _ (Nat.two_pow_pos n)
    have hp : 2 ^ n ≤ 2 ^ 32 := Nat.pow_le_pow_right (by decide) hle
    have hfits : (value % 2 ^ n) <<< w.held < 2 ^ 64 := by
      rw [Nat.shiftLeft_eq]
      calc value % 2 ^ n * 2 ^ w.held < 2 ^ n * 2 ^ w.held :=
            Nat.mul_lt_mul_of_pos_right hv (Nat.two_pow_pos _)
        _ = 2 ^ (n + w.held) := (Nat.pow_add 2 _ _).symm
        _ ≤ 2 ^ 64 := Nat.pow_le_pow_right (by decide) (by omega)
    have hfield : UInt64.ofNat ((value % 2 ^ n) <<< w.held) =
        (UInt64.ofNat value &&& DeflateHeader.lowMask n) <<< UInt64.ofNat w.held := by
      apply UInt64.toNat_inj.mp
      have hmod : w.held % 2 ^ 64 % 64 = w.held := by omega
      rw [UInt64.toNat_shiftLeft, UInt64.toNat_ofNat', UInt64.toNat_ofNat', hmod, UInt64.toNat_and,
        toNat_lowMask hle, Nat.and_two_pow_sub_one_eq_mod, UInt64.toNat_ofNat',
        Nat.mod_mod_of_dvd _ (Nat.pow_dvd_pow 2 (by omega))]
    have hmask : value &&& (2 ^ n - 1) = value % 2 ^ n := Nat.and_two_pow_sub_one_eq_mod _ _
    have hlast : add 64 w.written.size ((w.held + n + 7) / 8) =
        some (w.written.size + (w.held + n + 7) / 8) := add_eq (by omega)
    have hshl : shl 64 (value % 2 ^ n) w.held = some ((value % 2 ^ n) <<< w.held) :=
      shl_eq (by omega) hfits
    have hheld : add 32 w.held n = some (w.held + n) := add_eq (by omega)
    by_cases hlt : w.rest.length < (w.held + n + 7) / 8
    · simp [put, BitWriter.put, run_bind, hn, hheld, hlast, hlt]
    · obtain ⟨out, hout⟩ : ∃ out, BitWriter.emit ((w.held + n) / 8)
          ⟨w.written, w.rest, w.holder ||| (UInt64.ofNat value &&& DeflateHeader.lowMask n) <<<
            UInt64.ofNat w.held, w.held + n⟩ = out := ⟨_, rfl⟩
      have hemit : emit w.written (w.holder ||| UInt64.ofNat ((value % 2 ^ n) <<< w.held)) (w.held + n)
          w.rest = out := by rw [emit_eq (by omega), hfield, hout]
      cases out <;> simp [put, BitWriter.put, run_bind, hn, hheld, hlast, hlt, lowMask_eq hle, hmask,
        hshl, hemit, hout]

end Checked
end DeflateHeader
