import DeflateHeader.Proofs.HeaderPairs
import DeflateHeader.Proofs.HeaderReading
import DeflateHeader.Proofs.ReachableCodecs
import DeflateHeader.Proofs.Streams

/-!
# How many bytes a header takes

The puff form of a header takes three bytes for the fields, one for each two lengths of the code-length
alphabet and one for each token. A sink of that size is enough, and a smaller one is not: the decoder
asks for room before each of the three parts, for the tokens one by one, and what it cannot write it does
not begin. `kept h room` counts the bytes of a header that a sink with too little room gets
(`decodeHeader_full`); the rest of the sink stays as it was.
-/

namespace DeflateHeader

/-- How many bytes of the puff form of a header get into a sink with too little `room`: the packed
lengths as a whole or not at all. -/
def Header.kept (h : Header) (room : Nat) : Nat :=
  if room < 3 then 0 else if room < 3 + (h.hclen + 5) / 2 then 3 else room

namespace Decoding

variable {h : Header} {s : Decoding}

theorem needRoom_error {n : Nat} (h : s.sink.room < n) :
    needRoom n s = .error .insufficientOutput s := by
  unfold needRoom
  rw [run_bind_ok run_get, if_pos h]
  rfl

/-- A sink without room for the opening gets the fields or nothing. -/
theorem readOpening_full (hs : s.reader.WellFormed) (hc : s.codec.Sized) (ho : h.Opens)
    (hbits : h.openingBits <+: s.reader.bits) (hroom : s.sink.room < h.openingPuff.length) :
    ∃ s', readOpening s = .error .insufficientOutput s' ∧
      s.sink.Gets (h.openingPuff.take (h.kept s.sink.room)) s'.sink := by
  obtain ⟨c₀, hbegin, -⟩ := Codec.begin_ok hc
  rw [Header.length_openingPuff, ho.length_sent] at hroom
  rw [readOpening_eq, run_bind_ok (onCodec_ok hbegin), Header.kept]
  by_cases hfields : s.sink.room < 3
  · rw [if_pos hfields, run_bind_error (needRoom_error (s := { s with codec := c₀ }) hfields)]
    exact ⟨_, rfl, .refl _⟩
  · have hthree : 3 ≤ s.sink.room := Nat.le_of_not_lt hfields
    obtain ⟨r, k, hsizes, -, -, hg⟩ :=
      readSizes_opens (s := { s with codec := c₀ }) hs ho hbits hthree
    have hleft := hg.room_eq
    rw [Header.length_fieldBytes] at hleft
    have hshort : k.room < h.sizes.packedSize := by
      rw [ho.packedSize_eq, length_pack, ho.length_sent]
      dsimp only at hleft
      omega
    have hkeep : h.openingPuff.take 3 = Header.fieldBytes h.hlit h.hdist h.hclen := rfl
    rw [if_neg hfields, if_pos (by omega), hkeep,
      run_bind_ok (needRoom_ok (s := { s with codec := c₀ }) hthree), run_bind_ok hsizes,
      run_bind_ok (onCodec_ok (s := ⟨c₀, r, k⟩) (Codec.remark_ok (.sizes h.sizes) c₀)),
      run_bind_error (needRoom_error (s := ⟨_, r, k⟩) hshort)]
    exact ⟨_, rfl, hg⟩

/-- A sink without room for all of a header gets the first bytes of it. -/
theorem decodeHeader_full (hs : s.reader.WellFormed) (hc : s.codec.Sized) (hv : h.Valid)
    (hbits : h.bits <+: s.reader.bits)
    (hlook : Lookahead h.code h.tokens (s.reader.remaining - h.bits.length))
    (hroom : s.sink.room < h.puff.length) :
    ∃ s', decodeHeader s = .error .insufficientOutput s' ∧
      s.sink.Gets (h.puff.take (h.kept s.sink.room)) s'.sink := by
  have hopens : h.openingBits <+: s.reader.bits := (List.prefix_append _ _).trans hbits
  rw [decodeHeader_eq]
  by_cases hlt : s.sink.room < h.openingPuff.length
  · obtain ⟨s', herr, hgets⟩ := readOpening_full hs hc hv.toOpens hopens hlt
    refine ⟨s', run_bind_error herr, ?_⟩
    have hle : h.kept s.sink.room ≤ h.openingPuff.length := by
      rw [Header.length_openingPuff] at hlt ⊢
      rw [Header.kept, hv.length_sent] at *
      split <;> omega
    rwa [Header.puff, List.take_append_of_le_length hle]
  · have hge := Nat.le_of_not_lt hlt
    obtain ⟨s₁, hopening, ho⟩ := readOpening_run hs hc hv.toOpens hopens hge
    have htokens : tokenBits h.code h.tokens <+: s₁.reader.bits := by
      rwa [ho.bits, Header.bits, List.prefix_append_right_inj] at hbits
    have hroom₁ := ho.sink.room_eq
    have hrem₁ := ho.reader.remaining_eq
    have hrest : s.reader.remaining - h.bits.length =
        s₁.reader.remaining - (tokenBits h.code h.tokens).length := by
      rw [Header.bits, List.length_append]
      omega
    have hkept : h.kept s.sink.room = h.openingPuff.length + s₁.sink.room := by
      rw [Header.length_openingPuff, hv.length_sent] at hge hroom₁ ⊢
      rw [Header.kept, if_neg (by omega), if_neg (by omega)]
      omega
    rw [Header.puff, List.length_append, List.length_map] at hroom
    obtain ⟨p, herr, hgets⟩ := LengthReading.readTokens_full (s := ⟨s₁.reader, s₁.sink, []⟩)
      ho.decodes hv.code_feasible ho.reader.wellFormed hv.covers hv.coded htokens (hrest ▸ hlook)
      hv.expands (by dsimp only; omega)
    rw [run_bind_ok hopening, run_bind_ok run_get, ho.lens_eq]
    refine ⟨_, run_bind_error (readLengths_error herr), ?_⟩
    rw [hkept, Header.puff, List.take_length_add_append, ← List.map_take]
    exact ho.sink.trans hgets

end Decoding

open Decoding

/-- What a buffer holds after bytes were written to it from its start. -/
theorem ByteSink.Gets.buffer_ofBuffer {bs buffer : List UInt8} {k : ByteSink}
    (h : (ByteSink.ofBuffer buffer).Gets bs k) : k.buffer = bs ++ buffer.drop bs.length := by
  rw [h.buffer_eq, ByteSink.ofBuffer, List.nil_append]

/-- If a header is decoded into some buffer, its puff form takes three bytes, one for each two lengths of
the code-length alphabet and one for each token. Every codec decodes it, from the same place, into every
buffer of at least that size, and leaves the other bytes alone. It decodes it into no smaller one: this gets
the bytes that are kept, is otherwise unchanged, and no tables are loaded. -/
theorem outputSize_exact {bytes out : List UInt8} {c : Codec} {r : BitReader} {n : Nat} {s : Decoding}
    (hr : r.Reachable bytes) (hc : c.Reachable)
    (hrun : decodeHeader ⟨c, r, .ofBuffer out⟩ = .ok n s) :
    ∃ h : Header, h.Valid ∧ h.bits <+: r.bits ∧ n = 3 + (h.hclen + 4 + 1) / 2 + h.tokens.length ∧
      h.puff.length = n ∧ s.sink.buffer = h.puff ++ out.drop n ∧
      ∀ c', Codec.Reachable c' → ∀ buffer : List UInt8,
        (n ≤ buffer.length → ∃ s', decodeHeader ⟨c', r, .ofBuffer buffer⟩ = .ok n s' ∧
          s'.sink.buffer = h.puff ++ buffer.drop n) ∧
        (buffer.length < n → ∃ s',
          decodeHeader ⟨c', r, .ofBuffer buffer⟩ = .error .insufficientOutput s' ∧
          s'.codec.loaded = none ∧
          s'.sink.buffer = h.puff.take (h.kept buffer.length) ++
            buffer.drop (h.kept buffer.length)) := by
  obtain ⟨h, rfl, hreads⟩ := decodeHeader_ok hr.wellFormed hc.sized hrun
  have hbits : h.bits <+: r.bits := ⟨_, hreads.bits.symm⟩
  have hlook : Lookahead h.code h.tokens (r.remaining - h.bits.length) :=
    hreads.reader.remaining_eq ▸ hreads.look
  refine ⟨h, hreads.valid, hbits, ?_, rfl, hreads.sink.buffer_ofBuffer, fun c' hc' buffer => ⟨?_, ?_⟩⟩
  · rw [Header.length_puff, hreads.valid.length_sent]
  · intro hroom
    rcases decodeHeader_run (s := ⟨c', r, .ofBuffer buffer⟩) hr.wellFormed hc'.sized hreads.valid hbits
      hroom with ⟨-, s', hok, hreads'⟩ | ⟨hshort, -⟩
    · exact ⟨s', hok, hreads'.sink.buffer_ofBuffer⟩
    · exact absurd hlook hshort
  · intro hroom
    obtain ⟨s', herr, hgets⟩ := decodeHeader_full (s := ⟨c', r, .ofBuffer buffer⟩) hr.wellFormed
      hc'.sized hreads.valid hbits hlook hroom
    replace hgets : (ByteSink.ofBuffer buffer).Gets (h.puff.take (h.kept buffer.length)) s'.sink := hgets
    have hkept : h.kept buffer.length ≤ h.puff.length := by
      rw [Header.kept]
      split
      · exact Nat.zero_le _
      · split <;> omega
    refine ⟨s', herr, loaded_of_decodeHeader hc'.sized herr, ?_⟩
    rw [hgets.buffer_ofBuffer, List.length_take_of_le hkept]

/-- The plain header takes 16 of 20 bytes, and leaves its fields in four. -/
theorem outputSize_exact_plain : ∃ (r : BitReader) (s s' : Decoding),
    r.Reachable Codec.plainStream ∧
    decodeHeader ⟨.new, r, .ofBuffer (List.replicate 20 7)⟩ = .ok 16 s ∧
    decodeHeader ⟨.new, r, .ofBuffer (List.replicate 4 7)⟩ = .error .insufficientOutput s' ∧
    s'.codec.loaded = none ∧ s'.sink.buffer = s.sink.buffer.take 3 ++ [7] := by
  have hr : BitReader.Reachable Codec.plainStream _ := .drop 3 (.ensure 3 .start)
  have hbits : (Bits.ofBytes Codec.plainStream).drop 3 =
      Header.plain.bits ++ List.replicate 7 false := by decide +kernel
  have hpre : Header.plain.bits <+: BitReader.bits _ := ⟨_, (hr.bits_eq.trans hbits).symm⟩
  have hsize : Header.plain.puff.length = 16 := by decide +kernel
  rcases decodeHeader_run (s := ⟨.new, _, .ofBuffer (List.replicate 20 7)⟩) hr.wellFormed
    Codec.Reachable.new.sized Header.plain_valid hpre (by rw [hsize]; decide) with
    ⟨-, s, hrun, -⟩ | ⟨hshort, -⟩
  · rw [hsize] at hrun
    obtain ⟨h, hv, -, hn, hlen, hbuffer, hevery⟩ := outputSize_exact hr .new hrun
    obtain ⟨s', herr, hloaded, hbuffer'⟩ := (hevery .new .new (List.replicate 4 7)).2 (by decide)
    have hkept : h.kept 4 = 3 := by
      rw [Header.kept, if_neg (by decide), if_pos (by omega)]
    refine ⟨_, s, s', hr, hrun, herr, hloaded, ?_⟩
    rw [hbuffer', hbuffer, List.length_replicate, hkept,
      List.take_append_of_le_length (by rw [hlen]; decide)]
    rfl
  · refine absurd ?_ hshort
    rw [lookahead_iff_getLast (by decide)]
    decide +kernel

end DeflateHeader
