import DeflateHeader.Proofs.ContainerHeaders
import DeflateHeader.Proofs.ReachableCodecs

/-!
# Whole streams

What `Codec.puff` and `Codec.huff` do, in terms of bit strings. `puff` succeeds exactly on the
streams that begin with a valid header and leave enough lookahead (`Codec.puff_ok`,
`Codec.puff_run`), and `huff` exactly on the puff forms of valid headers (`Codec.huff_ok`,
`Codec.huff_run`); neither runs out of room.
-/

namespace DeflateHeader

/-- The stream form of the header of a dynamic block. -/
def blockBits (isFinal : Bool) : List Bool := [isFinal, false, true]

@[simp] theorem length_blockBits (isFinal : Bool) : (blockBits isFinal).length = 3 := rfl

/-! ## Block headers -/

namespace BlockHeader

theorem read_error {r : BitReader} (h : r.remaining < 3) : read r = .error .insufficientInput r := by
  unfold read
  rw [run_bind_error (BitReader.ensure_error (by decide) h)]

/-- Three bits that are left are read before the kind is judged. -/
theorem read_run {r : BitReader} (hr : r.WellFormed) (h : 3 ≤ r.remaining) :
    ∃ (isFinal : Bool) (bits : Nat) (r' : BitReader), bits < 4 ∧ r.Moves 3 r' ∧
      r.bits = isFinal :: Bits.ofNat 2 bits ++ r'.bits ∧
      read r = match BlockKind.ofBits bits with
        | .ok kind => .ok ⟨isFinal, kind⟩ r'
        | .error e => .error e r' := by
  obtain ⟨r₁, he, hm₁, hc₁⟩ := BitReader.ensure_ok hr (by decide) h
  obtain ⟨r₂, hd₂, hm₂, hc₂⟩ := BitReader.drop_run (n := 1) hm₁.wellFormed (by decide) (by omega)
  obtain ⟨r₃, hd₃, hm₃, -⟩ := BitReader.drop_run (n := 2) hm₂.wellFormed (by decide) (by omega)
  have hbits₁ : r₁.bits = r.bits := by simpa using hm₁.bits_eq
  have hlen₁ := hm₁.remaining_eq
  have hlen₂ := hm₂.remaining_eq
  obtain ⟨b, bs, hb⟩ : ∃ b bs, r₁.bits = b :: bs := by
    refine List.exists_cons_of_ne_nil fun hnil => ?_
    have := congrArg List.length hnil
    rw [BitReader.length_bits, List.length_nil] at this
    omega
  have hbits₂ : r₂.bits = bs := by rw [hm₂.bits_eq, hb, List.drop_one, List.tail_cons]
  have htake : (r₂.bits.take 2).length = 2 := by
    rw [List.length_take, BitReader.length_bits]
    omega
  have hlt := Bits.toNat_lt (r₂.bits.take 2)
  rw [htake] at hlt
  refine ⟨b, Bits.toNat (r₂.bits.take 2), r₃, hlt, (hm₁.trans hm₂).trans hm₃, ?_, ?_⟩
  · rw [Bits.ofNat_toNat_of_length htake, List.cons_append, ← hm₃.append_bits, hbits₂, ← hb, hbits₁]
  · have hflag : (Bits.toNat (r₁.bits.take 1) == 1) = b := by
      rw [hb]
      cases b <;> rfl
    unfold read
    rw [run_bind_ok he, run_bind_ok (BitReader.peek_run (by decide) (by omega)),
      run_bind_ok hd₂, run_bind_ok (BitReader.peek_run (by decide) (by omega)), run_bind_ok hd₃, hflag]
    cases BlockKind.ofBits (Bits.toNat (r₂.bits.take 2)) <;> rfl

/-- The two bits of each kind of block. -/
theorem eq_bits_of_ofBits {bits : Nat} {kind : BlockKind} (h : BlockKind.ofBits bits = .ok kind) :
    bits = kind.bits := by
  unfold BlockKind.ofBits at h
  split at h
  · rename_i hk
    cases h
    unfold BlockKind.ofBits? at hk
    split at hk <;> cases hk <;> rfl
  · cases h

theorem write_run {w : BitWriter} (hw : w.WellFormed) (hroom : 3 ≤ w.room) (isFinal : Bool) :
    ∃ w', write ⟨isFinal, .dynamic⟩ w = .ok () w' ∧ w.Appends (blockBits isFinal) w' := by
  obtain ⟨w₁, hp₁, ha₁⟩ := BitWriter.put_ok (n := 1) (v := isFinal.toNat) hw (by decide) (by omega)
  have hr₁ := ha₁.room_eq
  rw [Bits.length_ofNat] at hr₁
  obtain ⟨w₂, hp₂, ha₂⟩ := BitWriter.put_ok (n := 2) (v := BlockKind.dynamic.bits) ha₁.wellFormed
    (by decide) (by omega)
  refine ⟨w₂, by rw [write, run_bind_ok hp₁, hp₂], ?_⟩
  have := ha₁.trans ha₂
  cases isFinal <;> exact this

end BlockHeader

/-! ## One block -/

namespace Decoding

variable {s s' : Decoding} {h : Header} {isFinal : Bool}

/-- A dynamic block header is read, and the dynamic header behind it decoded. -/
theorem decodeBlock_run (hs : s.reader.WellFormed) (hc : s.codec.Sized) (hv : h.Valid)
    (hbits : blockBits isFinal ++ h.bits <+: s.reader.bits)
    (hroom : h.puff.length ≤ s.sink.room) :
    (Lookahead h.code h.tokens (s.reader.remaining - (3 + h.bits.length)) ∧
      ∃ s' r, decodeBlock s = .ok (⟨isFinal, .dynamic⟩, h.puff.length) s' ∧ s.reader.Moves 3 r ∧
        ReadsHeader h { s with reader := r } s') ∨
    (¬ Lookahead h.code h.tokens (s.reader.remaining - (3 + h.bits.length)) ∧
      ∃ s', decodeBlock s = .error .insufficientInput s') := by
  obtain ⟨rest, hrest⟩ := hbits
  have hlen : 3 ≤ s.reader.remaining := by
    rw [← BitReader.length_bits, ← hrest, List.length_append, List.length_append, length_blockBits]
    omega
  obtain ⟨b, bits, r, hlt, hm, hbits, hread⟩ := BlockHeader.read_run hs hlen
  have hsplit : isFinal :: ([false, true] ++ (h.bits ++ rest)) =
      b :: (Bits.ofNat 2 bits ++ r.bits) := hrest.trans hbits
  obtain ⟨rfl, htwo⟩ := List.cons.inj hsplit
  obtain ⟨hkind, htail⟩ := List.append_inj htwo (by simp)
  obtain rfl : bits = 2 := by
    have hval : 2 = Bits.toNat (Bits.ofNat 2 bits) := congrArg Bits.toNat hkind
    rw [Bits.toNat_ofNat] at hval
    omega
  have hread : BlockHeader.read s.reader = .ok ⟨isFinal, .dynamic⟩ r := hread
  have hrem : s.reader.remaining - (3 + h.bits.length) = r.remaining - h.bits.length := by
    rw [hm.remaining_eq]
    omega
  rw [hrem, decodeBlock, run_bind_ok (onReader_ok hread)]
  dsimp only
  rw [if_neg (not_not.mpr rfl)]
  rcases decodeHeader_run (s := { s with reader := r }) hm.wellFormed hc hv ⟨rest, htail⟩ hroom with
    ⟨hlook, s', hrun, hreads⟩ | ⟨hlook, s', hrun⟩
  · exact .inl ⟨hlook, s', r, by rw [run_bind_ok hrun]; rfl, hm, hreads⟩
  · exact .inr ⟨hlook, s', run_bind_error hrun⟩

/-- A decoder that succeeds has read the header of a dynamic block and a valid dynamic header. -/
theorem decodeBlock_ok {block : BlockHeader} {n : Nat} (hs : s.reader.WellFormed)
    (hc : s.codec.Sized) (hrun : decodeBlock s = .ok (block, n) s') :
    ∃ isFinal h r, block = ⟨isFinal, .dynamic⟩ ∧ n = h.puff.length ∧ s.reader.Moves 3 r ∧
      s.reader.bits = blockBits isFinal ++ r.bits ∧ ReadsHeader h { s with reader := r } s' := by
  have hlen : 3 ≤ s.reader.remaining := by
    by_contra hlt
    unfold decodeBlock at hrun
    rw [run_bind_error (onReader_error (BlockHeader.read_error
      (Nat.lt_of_not_le hlt)))] at hrun
    cases hrun
  obtain ⟨isFinal, bits, r, -, hm, hbits, hread⟩ := BlockHeader.read_run hs hlen
  unfold decodeBlock at hrun
  obtain ⟨block', s₁, h₁, hrest⟩ := ok_of_bind hrun
  obtain ⟨r₁, hread₁, rfl⟩ := ok_of_focus h₁
  rw [hread₁] at hread
  cases hkind : BlockKind.ofBits bits with
  | error e =>
    rw [hkind] at hread
    cases hread
  | ok kind =>
    rw [hkind] at hread
    cases hread
    by_cases hdyn : kind = .dynamic
    · subst hdyn
      rw [if_neg (not_not.mpr rfl)] at hrest
      obtain ⟨size, s₂, h₂, hpure⟩ := ok_of_bind hrest
      cases hpure
      obtain ⟨h, rfl, hreads⟩ := decodeHeader_ok (by exact hm.wellFormed) (by exact hc) h₂
      rw [BlockHeader.eq_bits_of_ofBits hkind] at hbits
      exact ⟨isFinal, h, r, rfl, rfl, hm, hbits, hreads⟩
    · rw [if_pos hdyn] at hrest
      cases hrest

end Decoding

namespace Encoding

variable {s s' : Encoding} {h : Header}

/-- The header of a dynamic block and a valid dynamic header are written if there is room. -/
theorem encodeBlock_run (hs : s.writer.WellFormed) (hc : s.codec.Sized) (hv : h.Valid)
    (isFinal : Bool) (hroom : 3 + h.bits.length ≤ s.writer.room) :
    ∃ bytes s' w, encodeBlock h.puff isFinal s = .ok (s.writer.bitCount + (3 + h.bits.length), bytes) s' ∧
      s.writer.Appends (blockBits isFinal) w ∧ (∃ s₁ : Encoding,
        WritesHeader h { s with writer := w } s₁ ∧ s'.codec = s₁.codec) ∧
      Bits.ofBytes bytes = s.writer.bits ++ blockBits isFinal ++ h.bits ++
        List.replicate (BitWriter.padding (s.writer.bitCount + (3 + h.bits.length))) false := by
  obtain ⟨w, hwrite, hw⟩ := BlockHeader.write_run hs (by omega) isFinal
  have hr := hw.room_eq
  rw [length_blockBits] at hr
  rcases encodeHeader_run (s := { s with writer := w }) hw.wellFormed hc hv with
    ⟨-, s₁, hrun, hwrites⟩ | ⟨hlt, -⟩
  · have hall := hw.trans hwrites.writer
    have hcount : s₁.writer.bitCount = s.writer.bitCount + (3 + h.bits.length) := by
      rw [hall.bitCount_eq, List.length_append, length_blockBits]
    obtain ⟨bytes, w', hfinish, hbytes⟩ := BitWriter.finish_ok hall.wellFormed
    rw [hall.bits_eq, hcount, ← List.append_assoc] at hbytes
    refine ⟨bytes, { s₁ with writer := w' }, w, ?_, hw, ⟨s₁, hwrites, rfl⟩, hbytes⟩
    unfold encodeBlock
    rw [run_bind_ok (onWriter_ok hwrite), run_bind_ok hrun, run_bind_ok run_get]
    rw [run_bind_ok (onWriter_ok hfinish), hcount]
    rfl
  · dsimp only at hlt
    omega

/-- An encoder that succeeds was given the puff form of a valid header. -/
theorem encodeBlock_ok {puff bytes : List UInt8} {isFinal : Bool} {n : Nat}
    (hs : s.writer.WellFormed) (hc : s.codec.Sized)
    (hrun : encodeBlock puff isFinal s = .ok (n, bytes) s') :
    ∃ h : Header, puff = h.puff ∧ h.Valid := by
  unfold encodeBlock at hrun
  obtain ⟨_, s₁, h₁, hrest⟩ := ok_of_bind hrun
  obtain ⟨w, hwrite, rfl⟩ := ok_of_focus h₁
  obtain ⟨_, s₂, h₂, -⟩ := ok_of_bind hrest
  have hw : w.WellFormed := by
    rw [BlockHeader.write] at hwrite
    obtain ⟨_, w₁, hp₁, hp₂⟩ := ok_of_bind hwrite
    exact (BitWriter.put_inv (BitWriter.put_inv hs (by decide) hp₁).wellFormed (by decide) hp₂).wellFormed
  obtain ⟨h, rfl, hwrites⟩ := encodeHeader_ok (by exact hw) (by exact hc) h₂
  exact ⟨h, rfl, hwrites.valid⟩

end Encoding

/-! ## Whole streams -/

/-- What `puff` returns for a header in a stream that begins after `containerSize` bytes. -/
def Header.puffed (h : Header) (isFinal : Bool) (containerSize : Nat) : Puffed :=
  ⟨⟨isFinal, .dynamic⟩, h.puff, 3 + h.bits.length, containerSize⟩

namespace Codec

variable {c c' : Codec} {h : Header} {isFinal : Bool} {data stream : List UInt8}
  {container : Container}

theorem Holds.with_notes (hh : c.Holds h) (notes : List Note) : { c with notes }.Holds h :=
  ⟨hh.codeLength, hh.litLen, hh.distance⟩

/-- A stream that begins with a valid header: it is turned into puff form if the longest code fits
into what is left at each token. -/
theorem puff_run (hc : c.Sized) (hstrip : container.strip data = .ok stream) (hv : h.Valid)
    (hbits : blockBits isFinal ++ h.bits <+: Bits.ofBytes stream) :
    (Lookahead h.code h.tokens (8 * stream.length - (3 + h.bits.length)) ∧
      ∃ c', puff data container c = .ok (h.puffed isFinal (data.length - stream.length)) c' ∧
        c'.Holds h) ∨
    (¬ Lookahead h.code h.tokens (8 * stream.length - (3 + h.bits.length)) ∧
      ∃ c', puff data container c = .error .insufficientInput c') := by
  have hremaining : (BitReader.ofBytes stream).remaining = 8 * stream.length := by
    simp [BitReader.remaining, BitReader.ofBytes]
  have hhead : blockBits isFinal ++ h.bits <+: (BitReader.ofBytes stream).bits := by
    rwa [BitReader.bits_ofBytes]
  have hrun := Decoding.decodeBlock_run
    (s := ⟨c, BitReader.ofBytes stream, ByteSink.ofBuffer (List.replicate maxPuffSize 0)⟩)
    (BitReader.wellFormed_ofBytes stream) hc hv hhead
    (by simpa [ByteSink.room, ByteSink.ofBuffer] using hv.length_puff_le)
  dsimp only at hrun
  rw [hremaining] at hrun
  unfold puff
  rw [hstrip]
  dsimp only
  rcases hrun with ⟨hlook, s', r, hok, hr, hreads⟩ | ⟨hlook, s', herr⟩
  · refine .inl ⟨hlook,
      { s'.codec with notes := s'.codec.notes ++ [.puffed (3 + h.bits.length) h.puff.length] }, ?_,
      hreads.holds.with_notes _⟩
    have hconsumed := (hr.trans hreads.reader).consumed_eq
    have hbuffer := hreads.sink.buffer_eq
    rw [BitReader.consumed_ofBytes, Nat.zero_add] at hconsumed
    rw [run_bind_ok (decoding_ok hok)]
    dsimp only
    rw [run_bind_ok (remark_ok _ _), hconsumed, hbuffer]
    simp [ByteSink.ofBuffer, Header.puffed]
  · exact .inr ⟨hlook, s'.codec, run_bind_error (decoding_error herr)⟩

/-- The stream form of the plain header, in a final block. -/
def plainStream : List UInt8 := [5, 192, 129, 0, 0, 0, 0, 0, 144, 255, 107, 0]

theorem puff_plainStream (hc : c.Sized) :
    ∃ c', puff plainStream .raw c = .ok (Header.plain.puffed true 0) c' := by
  have hbits : blockBits true ++ Header.plain.bits <+: Bits.ofBytes plainStream := by decide +kernel
  have hlook : Lookahead Header.plain.code Header.plain.tokens
      (8 * plainStream.length - (3 + Header.plain.bits.length)) := by
    rw [lookahead_iff_getLast (by decide)]
    decide +kernel
  have hstrip : Container.strip .raw plainStream = .ok plainStream := rfl
  rcases puff_run hc hstrip Header.plain_valid hbits with ⟨-, c', hok, -⟩ | ⟨hnot, -⟩
  · exact ⟨c', hok⟩
  · exact absurd hlook hnot

theorem ok_of_decoding {α : Type} {act : EStateM Error Decoding α} {room : Nat} {a : α} {s : Decoding}
    (hrun : decoding stream room act c = .ok (a, s) c') :
    act ⟨c, BitReader.ofBytes stream, ByteSink.ofBuffer (List.replicate room 0)⟩ = .ok a s := by
  unfold decoding at hrun
  dsimp only at hrun
  split at hrun
  · cases hrun
    assumption
  · cases hrun

/-- If `puff` succeeds, the stream begins with the header that it returns. -/
theorem puff_ok {p : Puffed} (hc : c.Sized) (hrun : puff data container c = .ok p c') :
    ∃ stream h isFinal, container.strip data = .ok stream ∧ h.Valid ∧
      blockBits isFinal ++ h.bits <+: Bits.ofBytes stream ∧
      p = h.puffed isFinal (data.length - stream.length) ∧ c'.Holds h := by
  have hsteps := hrun
  unfold puff at hsteps
  cases hstrip : container.strip data with
  | error e =>
    rw [hstrip] at hsteps
    cases hsteps
  | ok stream =>
    rw [hstrip] at hsteps
    obtain ⟨⟨⟨block, n⟩, s⟩, c₁, hblock, -⟩ := ok_of_bind hsteps
    obtain ⟨isFinal, h, r, -, -, -, hbits, hreads⟩ :=
      Decoding.decodeBlock_ok (BitReader.wellFormed_ofBytes stream) hc (ok_of_decoding hblock)
    have hhead : blockBits isFinal ++ h.bits <+: Bits.ofBytes stream := by
      refine ⟨s.reader.bits, ?_⟩
      rw [← BitReader.bits_ofBytes, hbits, List.append_assoc, hreads.bits]
    rcases puff_run hc hstrip hreads.valid hhead with ⟨-, c₂, hok, hholds⟩ | ⟨-, c₂, herr⟩
    · obtain ⟨rfl, rfl⟩ : p = _ ∧ c' = c₂ := by
        injection hrun.symm.trans hok with hp hc
        exact ⟨hp, hc⟩
      exact ⟨stream, h, isFinal, rfl, hreads.valid, hhead, rfl, hholds⟩
    · injection hrun.symm.trans herr

/-- The puff form of a valid header is turned into its stream form, filled up with zeros. -/
theorem huff_run (hc : c.Sized) (hv : h.Valid) (isFinal : Bool) :
    ∃ bytes c', huff h.puff isFinal c = .ok ⟨bytes, 3 + h.bits.length⟩ c' ∧
      Bits.ofBytes bytes = blockBits isFinal ++ h.bits ++
        List.replicate (BitWriter.padding (3 + h.bits.length)) false ∧ c'.Holds h := by
  have hroom : 3 + h.bits.length ≤
      (BitWriter.ofBuffer (List.replicate ((maxHeaderBits + 7) / 8) 0)).room := by
    rw [BitWriter.room_ofBuffer, List.length_replicate]
    have := hv.length_bits_le
    omega
  obtain ⟨bytes, s', w, hrun, -, ⟨s₁, hwrites, hcodec⟩, hbytes⟩ := Encoding.encodeBlock_run
    (s := ⟨c, BitWriter.ofBuffer (List.replicate ((maxHeaderBits + 7) / 8) 0)⟩)
    (BitWriter.wellFormed_ofBuffer _) hc hv isFinal hroom
  have hcount : (BitWriter.ofBuffer (List.replicate ((maxHeaderBits + 7) / 8) 0)).bitCount = 0 := rfl
  dsimp only at hrun hbytes
  rw [hcount, Nat.zero_add] at hrun hbytes
  rw [BitWriter.bits_ofBuffer, List.nil_append] at hbytes
  refine ⟨bytes, { s'.codec with
    notes := s'.codec.notes ++ [.huffed h.puff.length (3 + h.bits.length)] }, ?_, hbytes, ?_⟩
  · unfold huff
    rw [run_bind_ok (encoding_ok hrun)]
    rfl
  · rw [hcodec]
    exact hwrites.holds.with_notes _

/-- If `huff` succeeds, its input was the puff form of a valid header. -/
theorem huff_ok {puff : List UInt8} {x : Huffed} (hc : c.Sized)
    (hrun : huff puff isFinal c = .ok x c') : ∃ h : Header, puff = h.puff ∧ h.Valid := by
  unfold huff at hrun
  obtain ⟨⟨n, bytes⟩, c₁, hblock, -⟩ := ok_of_bind hrun
  unfold encoding at hblock
  split at hblock
  · rename_i hok
    exact Encoding.encodeBlock_ok (BitWriter.wellFormed_ofBuffer _) hc hok
  · cases hblock

end Codec
end DeflateHeader
