import DeflateHeader.Bits.Reader
import DeflateHeader.Proofs.BitStrings
import DeflateHeader.Proofs.Outcomes

/-!
# The reader as a bit string

`BitReader.bits` lists the bits that are left. Each step of a well-formed reader is determined by
that list: `ensure` succeeds if enough bits are left and then only fills the cache, `peek` shows
the first bits, `drop` removes them and `take` does all three. `Moves n r r'` says that `r'` stands
`n` bits after `r` in the same stream, however much either of them has cached.

`Reachable bytes` are the states that any sequence of steps leads to; they are well formed.
-/

namespace DeflateHeader

theorem toNat_lowMask {n : Nat} (h : n ≤ 32) : (lowMask n).toNat = 2 ^ n - 1 := by
  have hn : n % 2 ^ 64 % 64 = n := by omega
  have hp : 2 ^ n ≤ 2 ^ 32 := Nat.pow_le_pow_right (by decide) h
  have h1 : 1 ≤ 2 ^ n := Nat.one_le_two_pow
  have hs : ((1 : UInt64) <<< UInt64.ofNat n).toNat = 2 ^ n := by
    rw [UInt64.toNat_shiftLeft, UInt64.toNat_ofNat', hn, Nat.shiftLeft_eq]
    simp only [UInt64.toNat_one, Nat.one_mul]
    exact Nat.mod_eq_of_lt (by omega)
  rw [lowMask, UInt64.toNat_sub_of_le _ _ (by rw [UInt64.le_iff_toNat_le, hs]; exact h1), hs]
  rfl

namespace BitReader

variable {r r' r'' : BitReader} {m n : Nat}

/-- The bits that are left, cached or not. -/
def bits (r : BitReader) : List Bool := Bits.ofNat r.cached r.cache.toNat ++ Bits.ofBytes r.unread

/-- What every reader keeps: the cache has no bits above those in use, it never holds more than a
32-bit field and a partial byte need, and its bits come from bytes that were read. -/
structure WellFormed (r : BitReader) : Prop where
  cached_le : r.cached ≤ 39
  cache_lt : r.cache.toNat < 2 ^ r.cached
  cached_le_pulled : r.cached ≤ 8 * r.pulled

@[simp] theorem length_bits (r : BitReader) : r.bits.length = r.remaining := by
  simp [bits, remaining]; omega

/-- `r'` stands `n` bits after `r` in the same stream. -/
structure Moves (n : Nat) (r r' : BitReader) : Prop where
  wellFormed : r'.WellFormed
  le_remaining : n ≤ r.remaining
  bits_eq : r'.bits = r.bits.drop n
  consumed_eq : r'.consumed = r.consumed + n

theorem Moves.refl (h : r.WellFormed) : Moves 0 r r := ⟨h, by omega, by simp, rfl⟩

theorem Moves.remaining_eq (h : Moves n r r') : r'.remaining = r.remaining - n := by
  rw [← length_bits, h.bits_eq, List.length_drop, length_bits]

theorem Moves.trans (h : Moves m r r') (h' : Moves n r' r'') : Moves (m + n) r r'' where
  wellFormed := h'.wellFormed
  le_remaining := by have := h.le_remaining; have := h'.le_remaining; have := h.remaining_eq; omega
  bits_eq := by rw [h'.bits_eq, h.bits_eq, List.drop_drop]
  consumed_eq := by rw [h'.consumed_eq, h.consumed_eq, Nat.add_assoc]

/-- Moving over a given prefix leaves what follows it. -/
theorem Moves.bits_of_append {bs rest : List Bool} (h : Moves n r r') (hb : r.bits = bs ++ rest)
    (hn : bs.length = n) : r'.bits = rest := by
  rw [h.bits_eq, hb, ← hn, List.drop_left]

theorem Moves.append_bits (h : Moves n r r') : r.bits = r.bits.take n ++ r'.bits := by
  rw [h.bits_eq, List.take_append_drop]

theorem wellFormed_ofBytes (bytes : List UInt8) : (ofBytes bytes).WellFormed :=
  ⟨by simp [ofBytes], by simp [ofBytes], by simp [ofBytes]⟩

@[simp] theorem bits_ofBytes (bytes : List UInt8) : (ofBytes bytes).bits = Bits.ofBytes bytes := by
  simp [bits, ofBytes]

@[simp] theorem consumed_ofBytes (bytes : List UInt8) : (ofBytes bytes).consumed = 0 := rfl

/-! ## Filling the cache -/

/-- A byte on top of a cache that has room for it. -/
private theorem toNat_cache_or {cache : UInt64} {cached : Nat} (byte : UInt8)
    (hc : cache.toNat < 2 ^ cached) (hr : cached + 8 ≤ 64) :
    (cache ||| byte.toUInt64 <<< UInt64.ofNat cached).toNat =
      cache.toNat + 2 ^ cached * byte.toNat := by
  have hb : byte.toNat < 2 ^ 8 := byte.toNat_lt
  have hp : 2 ^ cached * byte.toNat < 2 ^ 64 := by
    calc 2 ^ cached * byte.toNat < 2 ^ cached * 2 ^ 8 :=
          Nat.mul_lt_mul_of_pos_left hb (Nat.two_pow_pos _)
      _ = 2 ^ (cached + 8) := (Nat.pow_add 2 cached 8).symm
      _ ≤ 2 ^ 64 := Nat.pow_le_pow_right (by decide) hr
  have hm : cached % 2 ^ 64 % 64 = cached := by omega
  rw [UInt64.toNat_or, UInt64.toNat_shiftLeft, UInt64.toNat_ofNat', hm, UInt8.toNat_toUInt64,
    Nat.shiftLeft_eq, Nat.mul_comm byte.toNat, Nat.mod_eq_of_lt hp, Nat.or_comm,
    ← Nat.two_pow_add_eq_or_of_lt hc, Nat.add_comm]

theorem pull_eq_some {k : Nat} (hc : r.cache.toNat < 2 ^ r.cached) (hr : r.cached + 8 * k ≤ 64)
    (hk : k ≤ r.unread.length) :
    ∃ r', pull k r = some r' ∧ r'.bits = r.bits ∧ r'.cache.toNat < 2 ^ r'.cached ∧
      r'.cached = r.cached + 8 * k ∧ r'.pulled = r.pulled + k := by
  induction k generalizing r with
  | zero => exact ⟨r, rfl, rfl, hc, rfl, rfl⟩
  | succ k ih =>
    obtain ⟨unread, pulled, cache, cached⟩ := r
    cases unread with
    | nil => simp at hk
    | cons byte rest =>
      simp only [List.length_cons] at hk hr hc
      have hb : byte.toNat < 2 ^ 8 := byte.toNat_lt
      have hval := toNat_cache_or byte hc (by omega)
      have hlt : (cache ||| byte.toUInt64 <<< UInt64.ofNat cached).toNat < 2 ^ (cached + 8) := by
        rw [hval, Nat.pow_add]
        calc cache.toNat + 2 ^ cached * byte.toNat
            < 2 ^ cached + 2 ^ cached * byte.toNat := by omega
          _ = 2 ^ cached * (byte.toNat + 1) := by grind
          _ ≤ 2 ^ cached * 2 ^ 8 := Nat.mul_le_mul_left _ hb
      obtain ⟨r', hp, hbits, hc', hcd, hpl⟩ := ih
        (r := ⟨rest, pulled + 1, cache ||| byte.toUInt64 <<< UInt64.ofNat cached, cached + 8⟩)
        hlt (by simp only; omega) (by simp only; omega)
      refine ⟨r', hp, ?_, hc', by simp only at hcd ⊢; omega, by simp only at hpl ⊢; omega⟩
      rw [hbits]
      simp only [bits, hval, Bits.ofBytes_cons, Bits.ofNat_add_of_lt _ hc, List.append_assoc]

theorem pull_eq_none {k : Nat} (hk : r.unread.length < k) : pull k r = none := by
  induction k generalizing r with
  | zero => omega
  | succ k ih =>
    obtain ⟨unread, pulled, cache, cached⟩ := r
    cases unread with
    | nil => rfl
    | cons byte rest => exact ih (by simpa using hk)

theorem ensure_ok (hr : r.WellFormed) (hn : n ≤ 32) (h : n ≤ r.remaining) :
    ∃ r', ensure n r = .ok () r' ∧ Moves 0 r r' ∧ n ≤ r'.cached := by
  have hw := hr.cached_le
  obtain ⟨r', hp, hbits, hc, hcd, hpl⟩ := pull_eq_some (k := (n - r.cached + 7) / 8) hr.cache_lt
    (by omega) (by simp only [remaining] at h; omega)
  have hle := hr.cached_le_pulled
  refine ⟨r', ?_, ⟨⟨by omega, hc, by omega⟩, by omega, by simp [hbits], ?_⟩, by omega⟩
  · simp [ensure, run_bind, Nat.not_lt.mpr hn, hp]
  · simp only [consumed]; omega

theorem ensure_error (hn : n ≤ 32) (h : r.remaining < n) :
    ensure n r = .error .insufficientInput r := by
  have hp : pull ((n - r.cached + 7) / 8) r = none := pull_eq_none (by
    simp only [remaining] at h; omega)
  simp [ensure, run_bind, Nat.not_lt.mpr hn, hp]

/-! ## Consuming -/

theorem peek_run (hn : n ≤ 32) (hc : n ≤ r.cached) :
    peek n r = .ok (Bits.toNat (r.bits.take n)) r := by
  have hv : r.cache.toNat &&& (lowMask n).toNat = Bits.toNat (r.bits.take n) := by
    rw [toNat_lowMask hn, Nat.and_two_pow_sub_one_eq_mod, bits,
      List.take_append_of_le_length (by simpa using hc), Bits.take_ofNat hc, Bits.toNat_ofNat]
  simp [peek, run_bind, Nat.not_lt.mpr hn, Nat.not_lt.mpr hc, hv]

theorem drop_run (hr : r.WellFormed) (hn : n ≤ 32) (hc : n ≤ r.cached) :
    ∃ r', drop n r = .ok () r' ∧ Moves n r r' ∧ r'.cached = r.cached - n := by
  have hw := hr.cached_le_pulled
  have hs : (r.cache >>> UInt64.ofNat n).toNat = r.cache.toNat / 2 ^ n := by
    have hm : n % 2 ^ 64 % 64 = n := by omega
    rw [UInt64.toNat_shiftRight, UInt64.toNat_ofNat', hm, Nat.shiftRight_eq_div_pow]
  refine ⟨{ r with cache := r.cache >>> UInt64.ofNat n, cached := r.cached - n }, ?_, ?_, rfl⟩
  · simp [drop, run_bind, Nat.not_lt.mpr hn, Nat.not_lt.mpr hc]
  · refine ⟨⟨?_, ?_, ?_⟩, ?_, ?_, ?_⟩
    · have := hr.cached_le; simp only; omega
    · simp only [hs]
      rw [Nat.div_lt_iff_lt_mul (Nat.two_pow_pos n), ← Nat.pow_add, Nat.sub_add_cancel hc]
      exact hr.cache_lt
    · simp only; omega
    · simp only [remaining]; omega
    · simp only [bits, hs]
      rw [List.drop_append_of_le_length (by simpa using hc), Bits.drop_ofNat hc]
    · simp only [consumed]; omega

theorem drop_error (hn : n ≤ 32) (hc : r.cached < n) : drop n r = .error (.fault .uncachedBits) r := by
  simp [drop, run_bind, Nat.not_lt.mpr hn, hc]

theorem take_ok (hr : r.WellFormed) (hn : n ≤ 32) (h : n ≤ r.remaining) :
    ∃ r', take n r = .ok (Bits.toNat (r.bits.take n)) r' ∧ Moves n r r' := by
  obtain ⟨r₁, he, hm, hc⟩ := ensure_ok hr hn h
  obtain ⟨r₂, hd, hm', -⟩ := drop_run hm.wellFormed hn hc
  refine ⟨r₂, ?_, by simpa using hm.trans hm'⟩
  unfold take
  rw [run_bind_ok he, run_bind_ok (peek_run hn hc), run_bind_ok hd, hm.bits_eq]
  simp

theorem take_error (hn : n ≤ 32) (h : r.remaining < n) :
    take n r = .error .insufficientInput r := by
  unfold take
  rw [run_bind_error (ensure_error hn h)]

/-- The outcome of reading a field shows whether its bits were left. -/
theorem take_inv {v : Nat} (hr : r.WellFormed) (hn : n ≤ 32) (h : take n r = .ok v r') :
    v = Bits.toNat (r.bits.take n) ∧ Moves n r r' := by
  by_cases hle : n ≤ r.remaining
  · obtain ⟨r₁, ht, hm⟩ := take_ok hr hn hle
    rw [ht] at h
    cases h
    exact ⟨rfl, hm⟩
  · rw [take_error hn (Nat.lt_of_not_le hle)] at h
    cases h

theorem returns_peek (hn : n ≤ 32) : Returns (· < 2 ^ n) (peek n) := by
  refine returns_bind_of fun r => ?_
  rw [if_neg (Nat.not_lt.mpr hn)]
  by_cases hc : r.cached < n
  · rw [if_pos hc]
    exact returns_bind (S := fun _ => False) returns_throw fun _ h => h.elim
  · rw [if_neg hc]
    refine returns_pure ?_
    rw [UInt64.toNat_and, toNat_lowMask hn, Nat.and_two_pow_sub_one_eq_mod]
    exact Nat.mod_lt _ (Nat.two_pow_pos n)

theorem returns_take (hn : n ≤ 32) : Returns (· < 2 ^ n) (take n) :=
  returns_bind_of fun _ => returns_bind (returns_peek hn) fun _ hv =>
    returns_bind_of fun _ => returns_pure hv

theorem skipToByte_run (hr : r.WellFormed) :
    ∃ r', skipToByte r = .ok () r' ∧ Moves (r.cached % 8) r r' := by
  obtain ⟨r', hd, hm, -⟩ := drop_run (n := r.cached % 8) hr (by omega) (by omega)
  exact ⟨r', by rw [skipToByte, run_bind_ok run_get, hd], hm⟩

/-! ## Every state of a reader -/

/-- The states that a reader of `bytes` can be brought into, by steps that succeed or fail. -/
inductive Reachable (bytes : List UInt8) : BitReader → Prop
  | start : Reachable bytes (ofBytes bytes)
  | ensure {r : BitReader} (n : Nat) (h : Reachable bytes r) :
      Reachable bytes (finalState (BitReader.ensure n r))
  | drop {r : BitReader} (n : Nat) (h : Reachable bytes r) :
      Reachable bytes (finalState (BitReader.drop n r))
  | skipToByte {r : BitReader} (h : Reachable bytes r) :
      Reachable bytes (finalState (BitReader.skipToByte r))

/-- Whatever its outcome, `ensure` does not move. -/
theorem moves_ensure (hr : r.WellFormed) (n : Nat) : Moves 0 r (finalState (ensure n r)) := by
  by_cases hn : n ≤ 32
  · by_cases h : n ≤ r.remaining
    · obtain ⟨r', he, hm, -⟩ := ensure_ok hr hn h
      rw [he]
      exact hm
    · rw [ensure_error hn (Nat.lt_of_not_le h)]
      exact .refl hr
  · have he : ensure n r = .error (.fault .wideField) r := by
      simp [ensure, run_bind, Nat.lt_of_not_le hn]
    rw [he]
    exact .refl hr

theorem moves_drop (hr : r.WellFormed) (n : Nat) : ∃ m, Moves m r (finalState (drop n r)) := by
  by_cases hn : n ≤ 32
  · by_cases h : n ≤ r.cached
    · obtain ⟨r', hd, hm, -⟩ := drop_run hr hn h
      rw [hd]
      exact ⟨n, hm⟩
    · rw [drop_error hn (Nat.lt_of_not_le h)]
      exact ⟨0, .refl hr⟩
  · have hd : drop n r = .error (.fault .wideField) r := by
      simp [drop, run_bind, Nat.lt_of_not_le hn]
    rw [hd]
    exact ⟨0, .refl hr⟩

variable {bytes : List UInt8}

/-- A reader stands where it says that it does. -/
theorem Reachable.moves (h : Reachable bytes r) : Moves r.consumed (ofBytes bytes) r := by
  have hmoves : ∃ n, Moves n (ofBytes bytes) r := by
    induction h with
    | start => exact ⟨0, .refl (wellFormed_ofBytes bytes)⟩
    | ensure n _ ih =>
      obtain ⟨m, hm⟩ := ih
      exact ⟨m, hm.trans (moves_ensure hm.wellFormed n)⟩
    | drop n _ ih =>
      obtain ⟨m, hm⟩ := ih
      obtain ⟨k, hk⟩ := moves_drop hm.wellFormed n
      exact ⟨m + k, hm.trans hk⟩
    | skipToByte _ ih =>
      obtain ⟨m, hm⟩ := ih
      obtain ⟨r', hs, hk⟩ := skipToByte_run hm.wellFormed
      rw [hs]
      exact ⟨_, hm.trans hk⟩
  obtain ⟨n, hn⟩ := hmoves
  rwa [hn.consumed_eq, consumed_ofBytes, Nat.zero_add]

theorem Reachable.wellFormed (h : Reachable bytes r) : r.WellFormed := h.moves.wellFormed

theorem Reachable.bits_eq (h : Reachable bytes r) : r.bits = (Bits.ofBytes bytes).drop r.consumed := by
  rw [h.moves.bits_eq, bits_ofBytes]

end BitReader
end DeflateHeader
