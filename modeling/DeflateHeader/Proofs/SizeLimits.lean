import DeflateHeader.Proofs.HeaderFailures
import DeflateHeader.Proofs.Streams

/-!
# Size limits

The two buffers of the operations on whole streams are large enough for every input.

* `length_puff_le`, `length_huff_le`: what `puff` returns and what `huff` accepts is at most
  `maxPuffSize` bytes long, and the header of the latter at most `maxHeaderBits` bits.
* `failsOnly_puff`, `failsOnly_huff`: an input that is rejected is never rejected for lack of room.
  Malformed inputs can get as far as the last token before they fail, so this does not follow from
  the sizes of valid headers; it is the bound on the tokens that are tried.
-/

namespace DeflateHeader

/-- Any error but the lack of room for the result. -/
def Error.NotRoom (e : Error) : Prop := e ≠ .insufficientOutput

theorem DecodeFailure.notRoom {short : Prop} (h : ¬ short) {e : Error} (he : DecodeFailure short e) :
    e.NotRoom := by
  rintro rfl
  cases he with
  | output hshort => exact h hshort

theorem EncodeFailure.notRoom {short : Prop} (h : ¬ short) {e : Error} (he : EncodeFailure short e) :
    e.NotRoom := by
  rintro rfl
  cases he with
  | output hshort => exact h hshort

/-! ## Containers -/

namespace Container

variable {bytes : List UInt8} {e : Error}

/-- A container is never rejected for lack of room. -/
theorem strip_notRoom {container : Container} (h : container.strip bytes = .error e) :
    e.NotRoom := by
  cases container with
  | raw => cases h
  | zlib =>
    change stripZlib bytes = _ at h
    unfold stripZlib at h
    split at h
    · split_ifs at h <;> cases h <;> simp [Error.NotRoom]
    · cases h
      simp [Error.NotRoom]
  | gzip =>
    change stripGzip bytes = _ at h
    unfold stripGzip at h
    split at h
    · split_ifs at h
      · cases h
        simp [Error.NotRoom]
      · cases h
        simp [Error.NotRoom]
      · cases h
        simp [Error.NotRoom]
      · rw [(readsField_dropGzipFields _).lacking h]
        simp [Error.NotRoom]
    · cases h
      simp [Error.NotRoom]

end Container

/-! ## One block -/

theorem BlockHeader.failsOnly_read {r : BitReader} (hr : r.WellFormed) :
    FailsOnly Error.NotRoom BlockHeader.read r := by
  by_cases h : 3 ≤ r.remaining
  · obtain ⟨isFinal, bits, r', -, -, -, hrun⟩ := read_run hr h
    cases hkind : BlockKind.ofBits bits with
    | ok kind =>
      rw [hkind] at hrun
      exact failsOnly_ok hrun
    | error e =>
      rw [hkind] at hrun
      refine failsOnly_error hrun ?_
      unfold BlockKind.ofBits at hkind
      split at hkind <;> cases hkind
      simp [Error.NotRoom]
  · exact failsOnly_error (read_error (Nat.lt_of_not_le h)) (by simp [Error.NotRoom])

/-- A sink of `maxPuffSize` bytes has room for the header of any block. -/
theorem Decoding.failsOnly_decodeBlock {s : Decoding} (hs : s.reader.WellFormed) (hc : s.codec.Sized)
    (hroom : maxPuffSize ≤ s.sink.room) : FailsOnly Error.NotRoom decodeBlock s := by
  refine failsOnly_bind (failsOnly_focus (BlockHeader.failsOnly_read hs)) fun block s₁ h₁ => ?_
  obtain ⟨r, hread, rfl⟩ := ok_of_focus h₁
  have hr : r.WellFormed := by
    by_cases h : 3 ≤ s.reader.remaining
    · obtain ⟨isFinal, bits, r', -, hm, -, hrun⟩ := BlockHeader.read_run hs h
      rw [hread] at hrun
      cases hkind : BlockKind.ofBits bits <;> rw [hkind] at hrun <;> cases hrun
      exact hm.wellFormed
    · rw [BlockHeader.read_error (Nat.lt_of_not_le h)] at hread
      cases hread
  by_cases hkind : block.kind = .dynamic
  · rw [if_neg (not_not.mpr hkind)]
    exact failsOnly_bind ((failsOnly_decodeHeader (s := { s with reader := r }) hr hc).mono
      fun e he => he.notRoom (Nat.not_lt.mpr hroom)) fun _ _ _ => failsOnly_pure
  · rw [if_pos hkind]
    exact failsOnly_error rfl (by simp [Error.NotRoom])

/-- A writer with room for `maxHeaderBits` bits has room for the header of any block. -/
theorem Encoding.failsOnly_encodeBlock {s : Encoding} (puff : List UInt8) (isFinal : Bool)
    (hs : s.writer.WellFormed) (hc : s.codec.Sized) (hroom : maxHeaderBits ≤ s.writer.room) :
    FailsOnly Error.NotRoom (encodeBlock puff isFinal) s := by
  have hthree : 3 ≤ maxHeaderBits := by decide
  obtain ⟨w, hwrite, ha⟩ := BlockHeader.write_run hs (Nat.le_trans hthree hroom) isFinal
  have hrest := ha.room_eq
  rw [length_blockBits] at hrest
  refine failsOnly_bind_ok (onWriter_ok hwrite) ?_
  refine failsOnly_bind ((failsOnly_encodeHeader (s := { s with writer := w }) puff ha.wellFormed
    hc).mono fun e he => he.notRoom (by dsimp only; omega)) fun _ s₁ h₁ => ?_
  obtain ⟨h, -, hwrites⟩ := encodeHeader_ok (by exact ha.wellFormed) (by exact hc) h₁
  obtain ⟨bytes, w₁, hfinish, -⟩ := BitWriter.finish_ok hwrites.writer.wellFormed
  exact failsOnly_bind_ok run_get (failsOnly_bind_ok (onWriter_ok hfinish) failsOnly_pure)

/-! ## Whole streams -/

namespace Codec

variable {c c' : Codec} {data bytes : List UInt8} {container : Container} {isFinal : Bool}

/-- A puff buffer that was decoded is within the limit. -/
theorem length_puff_le {p : Puffed} (hc : c.Sized) (hrun : puff data container c = .ok p c') :
    p.puff.length ≤ maxPuffSize := by
  obtain ⟨stream, h, isFinal, -, hv, -, rfl, -⟩ := puff_ok hc hrun
  exact hv.length_puff_le

/-- A puff buffer that is encoded is within the limit, and so are its bits. -/
theorem length_huff_le {x : Huffed} (hc : c.Sized) (hrun : huff bytes isFinal c = .ok x c') :
    bytes.length ≤ maxPuffSize ∧ x.bits ≤ maxHeaderBits := by
  obtain ⟨h, rfl, hv⟩ := huff_ok hc hrun
  obtain ⟨_, _, hok, -⟩ := huff_run hc hv isFinal
  obtain ⟨rfl, -⟩ : x = _ ∧ c' = _ := by
    injection hrun.symm.trans hok with hx hc
    exact ⟨hx, hc⟩
  exact ⟨hv.length_puff_le, hv.length_bits_le⟩

variable {E : Error → Prop} {α : Type}

theorem failsOnly_decoding {stream : List UInt8} {room : Nat} {act : EStateM Error Decoding α}
    (h : FailsOnly E act ⟨c, .ofBytes stream, .ofBuffer (List.replicate room 0)⟩) :
    FailsOnly E (decoding stream room act) c := by
  intro e c' hrun
  unfold decoding at hrun
  dsimp only at hrun
  split at hrun <;> cases hrun
  exact h _ _ ‹_›

theorem failsOnly_encoding {room : Nat} {act : EStateM Error Encoding α}
    (h : FailsOnly E act ⟨c, .ofBuffer (List.replicate room 0)⟩) :
    FailsOnly E (encoding room act) c := by
  intro e c' hrun
  unfold encoding at hrun
  split at hrun <;> cases hrun
  exact h _ _ ‹_›

/-- No stream makes `puff` run out of room. -/
theorem failsOnly_puff (hc : c.Sized) (data : List UInt8) (container : Container) :
    FailsOnly Error.NotRoom (puff data container) c := by
  unfold puff
  cases hstrip : container.strip data with
  | error e => exact failsOnly_error rfl (Container.strip_notRoom hstrip)
  | ok stream =>
    have hroom : maxPuffSize ≤ (ByteSink.ofBuffer (List.replicate maxPuffSize 0)).room := by
      simp [ByteSink.room, ByteSink.ofBuffer]
    exact failsOnly_bind (failsOnly_decoding (Decoding.failsOnly_decodeBlock
      (BitReader.wellFormed_ofBytes stream) hc hroom)) fun _ _ _ => failsOnly_ok rfl

/-- No buffer makes `huff` run out of room, whatever its length. -/
theorem failsOnly_huff (hc : c.Sized) (bytes : List UInt8) (isFinal : Bool) :
    FailsOnly Error.NotRoom (huff bytes isFinal) c := by
  have hroom : maxHeaderBits ≤
      (BitWriter.ofBuffer (List.replicate ((maxHeaderBits + 7) / 8) 0)).room := by
    rw [BitWriter.room_ofBuffer, List.length_replicate]
    omega
  exact failsOnly_bind (failsOnly_encoding (Encoding.failsOnly_encodeBlock bytes isFinal
    (BitWriter.wellFormed_ofBuffer _) hc hroom)) fun _ _ _ => failsOnly_ok rfl

end Codec
end DeflateHeader
