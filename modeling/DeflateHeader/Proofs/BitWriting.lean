import DeflateHeader.Bits.Writer
import DeflateHeader.Proofs.BitReading

/-!
# The writer as a bit string

`BitWriter.bits` lists the bits written so far and `room` counts those that still fit. A field is
appended if it fits (`put_ok`) and otherwise nothing happens (`put_error`). `Appends bs w w'` says
that `w'` is `w` with the bits `bs` appended, in the same buffer. The last partial byte always
fits, so `finish` cannot fail; it fills that byte up with zeros.
-/

namespace DeflateHeader

namespace BitWriter

variable {w w' w'' : BitWriter} {n v : Nat} {as bs : List Bool}

/-- The bits written since the start. -/
def bits (w : BitWriter) : List Bool :=
  Bits.ofBytes w.written.toList ++ Bits.ofNat w.held w.holder.toNat

/-- How many bits still fit. -/
def room (w : BitWriter) : Nat := 8 * w.rest.length - w.held

/-- What every writer keeps: less than a byte is held, the holder has no bits above those in use,
and the byte that they begin fits into the buffer. -/
structure WellFormed (w : BitWriter) : Prop where
  held_lt : w.held < 8
  holder_lt : w.holder.toNat < 2 ^ w.held
  held_le : w.held ≤ 8 * w.rest.length

@[simp] theorem length_bits (w : BitWriter) : w.bits.length = w.bitCount := by
  simp [bits, bitCount]

/-- `w'` is `w` with the bits `bs` appended, and no byte of the buffer beyond them touched. -/
structure Appends (bs : List Bool) (w w' : BitWriter) : Prop where
  wellFormed : w'.WellFormed
  bits_eq : w'.bits = w.bits ++ bs
  size_le : w.written.size ≤ w'.written.size
  rest_eq : w'.rest = w.rest.drop (w'.written.size - w.written.size)
  room_eq : w'.room + bs.length = w.room

theorem Appends.refl (h : w.WellFormed) : Appends [] w w :=
  ⟨h, by simp, by omega, by simp, by simp⟩

theorem Appends.trans (h : Appends as w w') (h' : Appends bs w' w'') : Appends (as ++ bs) w w'' where
  wellFormed := h'.wellFormed
  bits_eq := by rw [h'.bits_eq, h.bits_eq, List.append_assoc]
  size_le := Nat.le_trans h.size_le h'.size_le
  rest_eq := by
    have := h.size_le; have := h'.size_le
    rw [h'.rest_eq, h.rest_eq, List.drop_drop]
    congr 1
    omega
  room_eq := by have := h.room_eq; have := h'.room_eq; rw [List.length_append]; omega

theorem Appends.bitCount_eq (h : Appends bs w w') : w'.bitCount = w.bitCount + bs.length := by
  rw [← length_bits, h.bits_eq, List.length_append, length_bits]

theorem wellFormed_ofBuffer (bytes : List UInt8) : (ofBuffer bytes).WellFormed :=
  ⟨by simp [ofBuffer], by simp [ofBuffer], by simp [ofBuffer]⟩

@[simp] theorem bits_ofBuffer (bytes : List UInt8) : (ofBuffer bytes).bits = [] := by
  simp [bits, ofBuffer]

@[simp] theorem room_ofBuffer (bytes : List UInt8) : (ofBuffer bytes).room = 8 * bytes.length := by
  simp [room, ofBuffer]

/-! ## Fields -/

/-- Full bytes that leave the holder keep their place in the bit string. -/
theorem emit_eq_some {k : Nat} (hh : w.holder.toNat < 2 ^ w.held) (hk : 8 * k ≤ w.held)
    (hr : k ≤ w.rest.length) :
    ∃ w', emit k w = some w' ∧ w'.bits = w.bits ∧ w'.holder.toNat < 2 ^ w'.held ∧
      w'.held = w.held - 8 * k ∧ w'.rest = w.rest.drop k ∧
      w'.written.size = w.written.size + k := by
  induction k generalizing w with
  | zero => exact ⟨w, rfl, rfl, hh, rfl, rfl, rfl⟩
  | succ k ih =>
    obtain ⟨written, rest, holder, held⟩ := w
    cases rest with
    | nil => simp at hr
    | cons b rest =>
      simp only [List.length_cons] at hh hk hr
      have hs : (holder >>> 8).toNat = holder.toNat / 2 ^ 8 := by
        rw [UInt64.toNat_shiftRight]
        exact Nat.shiftRight_eq_div_pow _ _
      have hlt : (holder >>> 8).toNat < 2 ^ (held - 8) := by
        rw [hs, Nat.div_lt_iff_lt_mul (Nat.two_pow_pos 8), ← Nat.pow_add,
          Nat.sub_add_cancel (by omega)]
        exact hh
      obtain ⟨w', he, hb, hh', hd, hrest, hsize⟩ := ih
        (w := ⟨written.push holder.toUInt8, rest, holder >>> 8, held - 8⟩) hlt
        (by simp only; omega) (by simp only; omega)
      refine ⟨w', he, ?_, hh', by simp only at hd ⊢; omega, by simpa using hrest,
        by rw [hsize, Array.size_push, Nat.add_right_comm, Nat.add_assoc]⟩
      have hsplit := Bits.ofNat_add 8 (held - 8) holder.toNat
      rw [Nat.add_sub_cancel' (by omega)] at hsplit
      have hbyte : Bits.ofNat 8 (holder.toNat % 2 ^ 8) = Bits.ofNat 8 holder.toNat :=
        Bits.ofNat_mod 8 _
      rw [hb]
      simp only [bits, Array.toList_push, Bits.ofBytes_append, Bits.ofBytes_cons, Bits.ofBytes_nil,
        List.append_nil, List.append_assoc, hs, hsplit, UInt64.toNat_toUInt8, hbyte]

theorem put_ok (hw : w.WellFormed) (hn : n ≤ 32) (h : n ≤ w.room) :
    ∃ w', put n v w = .ok () w' ∧ Appends (Bits.ofNat n v) w w' := by
  obtain ⟨hheld, hholder, hle⟩ := hw
  simp only [room] at h
  have hmask : (UInt64.ofNat v &&& lowMask n).toNat = v % 2 ^ n := by
    rw [UInt64.toNat_and, toNat_lowMask hn, Nat.and_two_pow_sub_one_eq_mod, UInt64.toNat_ofNat',
      Nat.mod_mod_of_dvd _ (Nat.pow_dvd_pow 2 (by omega))]
  have hv : v % 2 ^ n < 2 ^ n := Nat.mod_lt _ (Nat.two_pow_pos n)
  have hfield : 2 ^ w.held * (v % 2 ^ n) < 2 ^ (w.held + n) := by
    rw [Nat.pow_add]; exact Nat.mul_lt_mul_of_pos_left hv (Nat.two_pow_pos _)
  have h64 : 2 ^ (w.held + n) ≤ 2 ^ 64 := Nat.pow_le_pow_right (by decide) (by omega)
  have hmod : w.held % 2 ^ 64 % 64 = w.held := by omega
  have hval : (w.holder ||| (UInt64.ofNat v &&& lowMask n) <<< UInt64.ofNat w.held).toNat =
      w.holder.toNat + 2 ^ w.held * (v % 2 ^ n) := by
    rw [UInt64.toNat_or, UInt64.toNat_shiftLeft, UInt64.toNat_ofNat', hmod, hmask,
      Nat.shiftLeft_eq, Nat.mul_comm (v % 2 ^ n), Nat.mod_eq_of_lt (by omega), Nat.or_comm,
      ← Nat.two_pow_add_eq_or_of_lt hholder, Nat.add_comm]
  have hlt : w.holder.toNat + 2 ^ w.held * (v % 2 ^ n) < 2 ^ (w.held + n) := by
    calc w.holder.toNat + 2 ^ w.held * (v % 2 ^ n)
        < 2 ^ w.held + 2 ^ w.held * (v % 2 ^ n) := by omega
      _ = 2 ^ w.held * (v % 2 ^ n + 1) := by grind
      _ ≤ 2 ^ w.held * 2 ^ n := Nat.mul_le_mul_left _ hv
      _ = 2 ^ (w.held + n) := (Nat.pow_add 2 _ _).symm
  obtain ⟨w', he, hb, hh, hd, hrest, hsize⟩ := emit_eq_some (k := (w.held + n) / 8)
    (w := { w with
      holder := w.holder ||| (UInt64.ofNat v &&& lowMask n) <<< UInt64.ofNat w.held
      held := w.held + n })
    (by simp only [hval]; exact hlt) (by simp only; omega) (by simp only; omega)
  simp only at hd hrest hsize
  have hlen : w'.rest.length = w.rest.length - (w.held + n) / 8 := by rw [hrest, List.length_drop]
  refine ⟨w', ?_, ⟨⟨by omega, hh, by omega⟩, ?_, by omega, by rw [hrest, hsize]; congr 1; omega, ?_⟩⟩
  · have hroom : ¬ w.rest.length < (w.held + n + 7) / 8 := by omega
    simp [put, run_bind, Nat.not_lt.mpr hn, hroom, he]
  · rw [hb]
    simp only [bits, hval, Bits.ofNat_add_of_lt _ hholder, Bits.ofNat_mod, List.append_assoc]
  · simp only [room, Bits.length_ofNat]; omega

theorem put_error (hw : w.WellFormed) (hn : n ≤ 32) (h : w.room < n) :
    put n v w = .error .insufficientOutput w := by
  have hroom : w.rest.length < (w.held + n + 7) / 8 := by
    have := hw.held_le; simp only [room] at h; omega
  simp [put, run_bind, Nat.not_lt.mpr hn, hroom]

/-- The outcome of writing a field shows whether it did fit. -/
theorem put_inv {u : Unit} (hw : w.WellFormed) (hn : n ≤ 32) (h : put n v w = .ok u w') :
    Appends (Bits.ofNat n v) w w' := by
  by_cases hle : n ≤ w.room
  · obtain ⟨w₁, hp, ha⟩ := put_ok (v := v) hw hn hle
    rw [hp] at h
    cases h
    exact ha
  · rw [put_error hw hn (Nat.lt_of_not_le hle)] at h
    cases h

/-! ## The last byte -/

/-- How many bits a bit string lacks to whole bytes. -/
def padding (n : Nat) : Nat := (8 - n % 8) % 8

theorem padByte_ok (hw : w.WellFormed) (v : Nat) :
    ∃ w', padByte v w = .ok () w' ∧ Appends (Bits.ofNat (padding w.bitCount) v) w w' := by
  have hp : (8 - w.held % 8) % 8 = padding w.bitCount := by simp only [padding, bitCount]; omega
  have hroom : padding w.bitCount ≤ w.room := by
    have := hw.held_le; have := hw.held_lt
    simp only [padding, bitCount, room]; omega
  obtain ⟨w', h, ha⟩ := put_ok (v := v) hw (by simp only [padding]; omega) hroom
  exact ⟨w', by rw [padByte, run_bind_ok run_get, hp, h], ha⟩

theorem finish_ok (hw : w.WellFormed) :
    ∃ bytes w', finish w = .ok bytes w' ∧
      Bits.ofBytes bytes = w.bits ++ List.replicate (padding w.bitCount) false := by
  obtain ⟨w', h, ha⟩ := padByte_ok hw 0
  refine ⟨w'.written.toList, w', by rw [finish, flush, run_bind_ok h]; rfl, ?_⟩
  have hb := ha.bits_eq
  have hheld : w'.held = 0 := by
    have hc := ha.bitCount_eq
    have := ha.wellFormed.held_lt
    simp only [Bits.length_ofNat, padding, bitCount] at hc
    omega
  rw [Bits.ofNat_eq_replicate] at hb
  rw [← hb, bits, hheld]
  simp

/-! ## Every state of a writer -/

/-- The states that a writer into `buffer` can be brought into, by steps that succeed or fail. -/
inductive Reachable (buffer : List UInt8) : BitWriter → Prop
  | start : Reachable buffer (ofBuffer buffer)
  | put {w : BitWriter} (n v : Nat) (h : Reachable buffer w) :
      Reachable buffer (finalState (BitWriter.put n v w))
  | padByte {w : BitWriter} (v : Nat) (h : Reachable buffer w) :
      Reachable buffer (finalState (BitWriter.padByte v w))

/-- Whatever becomes of a field, some bits are appended and no others change. -/
theorem appends_put (hw : w.WellFormed) (n v : Nat) : ∃ bs, w.Appends bs (finalState (put n v w)) := by
  by_cases hn : n ≤ 32
  · by_cases h : n ≤ w.room
    · obtain ⟨w', hp, ha⟩ := put_ok (v := v) hw hn h
      rw [hp]
      exact ⟨_, ha⟩
    · rw [put_error hw hn (Nat.lt_of_not_le h)]
      exact ⟨[], .refl hw⟩
  · have hp : put n v w = .error (.fault .wideField) w := by
      simp [put, run_bind, Nat.lt_of_not_le hn]
    rw [hp]
    exact ⟨[], .refl hw⟩

theorem keeps_put (n v : Nat) : Keeps WellFormed (put n v) := by
  intro w hw
  obtain ⟨bs, ha⟩ := appends_put hw n v
  exact ha.wellFormed

theorem Reachable.wellFormed {buffer : List UInt8} (h : Reachable buffer w) : w.WellFormed := by
  induction h with
  | start => exact wellFormed_ofBuffer buffer
  | put n v _ ih => exact keeps_put n v _ ih
  | padByte v _ ih =>
    obtain ⟨w', hp, ha⟩ := padByte_ok ih v
    rw [hp]
    exact ha.wellFormed

/-- The bits written and the room that is left make up the buffer. -/
theorem Reachable.bitCount_add_room {buffer : List UInt8} (h : Reachable buffer w) :
    w.bitCount + w.room = 8 * buffer.length := by
  induction h with
  | start => simp [bitCount, room, ofBuffer]
  | @put w n v h ih =>
    obtain ⟨bs, ha⟩ := appends_put h.wellFormed n v
    have := ha.bitCount_eq
    have := ha.room_eq
    omega
  | @padByte w v h ih =>
    obtain ⟨w', hp, ha⟩ := padByte_ok h.wellFormed v
    have := ha.bitCount_eq
    have := ha.room_eq
    rw [hp, finalState_ok]
    omega

end BitWriter
end DeflateHeader
