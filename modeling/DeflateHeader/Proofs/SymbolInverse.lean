import DeflateHeader.Proofs.BitwiseParser
import DeflateHeader.Proofs.CoherentCodecs
import DeflateHeader.Proofs.PuffGrammar

/-!
# Codecs that load the same header

One codec encodes a puff buffer, another decodes the bits. Both then answer by the lengths of one and
the same header, the first from symbols to codes, the second from keys to symbols, so each undoes the
other (`Codec.symbol_iff_code`).

The two sides differ in one place. The last token can stand for more lengths than are missing, and the
surplus stays at the end of the distance alphabet. It counts for the canonical code on both sides, but
the table for encoding has no entry for a symbol from 30 on. Only a repetition can leave a length there
that is not zero, and never more than five (`repeatPrevious_of_covers`).
-/

namespace DeflateHeader

/-- For the same lengths, a key gives a symbol if and only if the symbol gives what the key begins
with. -/
theorem AnswersKeys.ok_iff_code {lens : Lengths} {size : Nat} {f g : Nat → Except Error (Nat × Nat)}
    (hf : AnswersKeys lens f) (hg : AnswersSymbols lens size g) {s : Nat} (hs : s < size)
    (l key : Nat) : f key = .ok (s, l) ↔ g s = .ok (key % 2 ^ l, l) := by
  rw [hf.ok_iff, hg.ok_iff]
  exact ⟨fun h => ⟨hs, h⟩, fun h => h.2⟩

/-! ## More lengths than are missing -/

section Overshoot

variable {lens lens' : Lengths} {t : Token} {ts : List Token} {missing i : Nat}

/-- What one token appends has a length after the first only if the token is a repetition. -/
theorem Token.eq_repeatPrevious_of_pos {value : UInt8} (hv : t.value? lens = some value)
    (hi : lens.length < i) (hpos : 0 < Lengths.lengthOf (lens ++ List.replicate t.count value) i) :
    ∃ extra, t = .repeatPrevious extra ∧ i < lens.length + 6 := by
  have hlt := Lengths.lt_length_of_pos hpos
  rw [List.length_append, List.length_replicate] at hlt
  have hvalue : value ≠ 0 := by
    rintro rfl
    rw [Lengths.lengthOf, List.getD_append_right _ _ _ _ (Nat.le_of_lt hi),
      List.getD_replicate _ (by omega)] at hpos
    exact absurd hpos (by decide)
  cases t with
  | length len =>
    simp only [count] at hlt
    omega
  | repeatPrevious extra =>
    simp only [count] at hlt
    exact ⟨extra, rfl, by omega⟩
  | repeatZero extra =>
    cases hv
    exact absurd rfl hvalue
  | repeatZeroLong extra =>
    cases hv
    exact absurd rfl hvalue

/-- A length past the missing ones comes from a last token that repeats, and there are at most five of
them. -/
theorem repeatPrevious_of_covers (hcov : Covers missing ts) (hexp : expandAll lens ts = some lens')
    (hi : lens.length + missing ≤ i) (hpos : 0 < lens'.lengthOf i) :
    ∃ extra, ts.getLast? = some (.repeatPrevious extra) ∧ i < lens.length + missing + 5 := by
  induction ts generalizing missing lens with
  | nil =>
    cases hexp
    rw [Lengths.lengthOf_eq_zero (by omega)] at hpos
    omega
  | cons t ts ih =>
    obtain ⟨value, hv, hexp⟩ := expandAll_cons_eq_some hexp
    have hmissing : 0 < missing := by
      by_contra h
      obtain rfl : missing = 0 := by omega
      cases covers_zero.mp hcov
    rw [covers_cons hmissing] at hcov
    rcases Nat.lt_or_ge t.count missing with hlt | hge
    · -- The token does not get there, so there are others after it.
      obtain ⟨extra, hlast, hbound⟩ := ih hcov hexp
        (by rw [List.length_append, List.length_replicate]; omega)
      rw [List.length_append, List.length_replicate] at hbound
      refine ⟨extra, ?_, by omega⟩
      rw [List.getLast?_cons, hlast]
      rfl
    · rw [Nat.sub_eq_zero_of_le hge, covers_zero] at hcov
      subst hcov
      cases hexp
      obtain ⟨extra, rfl, hbound⟩ := Token.eq_repeatPrevious_of_pos hv (by omega) hpos
      exact ⟨extra, rfl, by omega⟩

end Overshoot

theorem Header.lengthOf_distance (h : Header) (s : Nat) :
    h.distance.lengthOf s = h.lens.lengthOf (h.sizes.litLen + s) := by
  rw [Lengths.lengthOf, Lengths.lengthOf, distance, List.getD_eq_getElem?_getD, List.getElem?_drop,
    List.getD_eq_getElem?_getD]

namespace Header.Valid

variable {h : Header} {s : Nat}

/-- A distance symbol past those of the header is left by a last token that repeats too often. -/
theorem repeatPrevious_of_overshoot (hv : h.Valid) (hs : h.sizes.distance ≤ s)
    (hpos : 0 < h.distance.lengthOf s) :
    ∃ extra, h.tokens.getLast? = some (.repeatPrevious extra) ∧
      h.sizes.total < totalCount h.tokens ∧ s ≤ h.sizes.distance + 4 := by
  rw [lengthOf_distance] at hpos
  have hlt := Lengths.lt_length_of_pos hpos
  rw [hv.length_lens] at hlt
  have htotal : h.sizes.total = h.sizes.litLen + h.sizes.distance := rfl
  obtain ⟨extra, hlast, hbound⟩ := repeatPrevious_of_covers hv.covers hv.expands
    (by rw [List.length_nil]; omega) hpos
  rw [List.length_nil] at hbound
  exact ⟨extra, hlast, by omega, by omega⟩

theorem length_litLen_le (hv : h.Valid) : h.litLen.length ≤ fixedLitLenCount := by
  have := hv.hlit_le
  rw [litLen, List.length_take]
  simp only [sizes, fixedLitLenCount]
  omega

/-- The last byte of a puff form is that of the last token. -/
theorem getLast?_puff (hv : h.Valid) : h.puff.getLast? = h.tokens.getLast?.map Token.toByte := by
  rw [puff, List.getLast?_append_of_ne_nil _ (by simpa using hv.tokens_ne_nil), List.getLast?_map]

end Header.Valid

/-! ## The two codecs -/

namespace Decoding

variable {h : Header} {s s' : Decoding}

/-- The bits of a valid header determine what the decoder reads. -/
theorem ReadsHeader.eq_of_bits {h' : Header} {rest : List Bool} (hreads : ReadsHeader h' s s')
    (hv : h.Valid) (hbits : s.reader.bits = h.bits ++ rest) : h' = h := by
  have hparse := hreads.parse_eq
  rw [hbits, Bitwise.parse_bits hv] at hparse
  injection hparse with hparse
  injection hparse with heq
  exact heq.symm

theorem ReadsHeader.answersKeys (hreads : ReadsHeader h s s') :
    AnswersKeys h.litLen s'.codec.litLenSymbol ∧ AnswersKeys h.distance s'.codec.distanceSymbol := by
  have hd : s'.codec.Decodes := by
    rw [Codec.Decodes, hreads.holds.litLen, hreads.holds.distance]
    exact ⟨hreads.litLen_decodes, hreads.distance_decodes⟩
  have hanswers := Codec.answersKeys_of_decodes hreads.loaded rfl hd
  rwa [hreads.holds.litLen, hreads.holds.distance] at hanswers

/-- Seven bits after a valid header are enough for every lookahead. -/
theorem decodeHeader_of_seven (hs : s.reader.WellFormed) (hc : s.codec.Sized) (hv : h.Valid)
    {more : List Bool} (hbits : s.reader.bits = h.bits ++ more) (hmore : 7 ≤ more.length)
    (hroom : h.puff.length ≤ s.sink.room) : ∃ n s', decodeHeader s = .ok n s' := by
  rcases decodeHeader_run hs hc hv ⟨more, hbits.symm⟩ hroom with ⟨-, s', hok, -⟩ | ⟨hnot, -⟩
  · exact ⟨_, s', hok⟩
  · have hrest : s.reader.remaining - h.bits.length = more.length := by
      rw [← BitReader.length_bits, hbits, List.length_append, Nat.add_sub_cancel_left]
    rw [hrest, lookahead_iff_getLast hv.tokens_ne_nil] at hnot
    have hmax : h.code.maxLength ≤ 7 := hv.maxLength_le
    omega

end Decoding

theorem Encoding.WritesHeader.answersSymbols {h : Header} {s s' : Encoding}
    (hwrites : WritesHeader h s s') :
    AnswersSymbols h.litLen fixedLitLenCount s'.codec.litLenCode ∧
      AnswersSymbols h.distance maxDistanceCount s'.codec.distanceCode := by
  have he : s'.codec.Encodes := by
    rw [Codec.Encodes, hwrites.holds.litLen, hwrites.holds.distance]
    exact ⟨hwrites.litLen_encodes, hwrites.distance_encodes⟩
  have hanswers := Codec.answersSymbols_of_encodes hwrites.loaded rfl he
  rwa [hwrites.holds.litLen, hwrites.holds.distance, hwrites.litLen_size,
    hwrites.distance_size] at hanswers

namespace Codec

/-- One codec encodes a puff buffer, another one decodes the bits, followed by others; seven of them
are always enough. Then each undoes what the other answers, for all literal/length symbols and for the
distance symbols below 30. A distance symbol that the header has no room for is at most four past
its last one, comes from a repetition as the last token that goes past the end, and cannot be encoded
from 30 on. -/
theorem symbol_iff_code {a b : Codec} (ha : a.Reachable) (hb : b.Reachable)
    {buffer : List UInt8} {w : BitWriter} (hw : BitWriter.Reachable buffer w)
    {bytes : List UInt8} {r : BitReader} (hr : BitReader.Reachable bytes r)
    {puff : List UInt8} {sA : Encoding} {bits more : List Bool} {sink : ByteSink}
    (hencode : Encoding.encodeHeader puff ⟨a, w⟩ = .ok () sA)
    (hwritten : sA.writer.bits = w.bits ++ bits)
    (hread : (Bits.ofBytes bytes).drop r.consumed = bits ++ more) :
    (7 ≤ more.length → puff.length ≤ sink.room →
      ∃ n sB, Decoding.decodeHeader ⟨b, r, sink⟩ = .ok n sB) ∧
    ∀ n sB, Decoding.decodeHeader ⟨b, r, sink⟩ = .ok n sB →
      (∀ s l key, sB.codec.litLenSymbol key = .ok (s, l) ↔
        sA.codec.litLenCode s = .ok (key % 2 ^ l, l)) ∧
      (∀ s < maxDistanceCount, ∀ l key, sB.codec.distanceSymbol key = .ok (s, l) ↔
        sA.codec.distanceCode s = .ok (key % 2 ^ l, l)) ∧
      ∀ s l key, sB.codec.distanceSymbol key = .ok (s, l) →
        s ≤ (Header.ofPuff puff).sizes.distance + 4 ∧
        ((Header.ofPuff puff).sizes.distance ≤ s →
          (∃ extra, puff.getLast? = some (Token.repeatPrevious extra).toByte) ∧
            (Header.ofPuff puff).sizes.total < totalCount (Header.ofPuff puff).tokens) ∧
        (maxDistanceCount ≤ s →
          sA.codec.distanceCode s = .error (.invalid (.unusedSymbol s))) := by
  obtain ⟨h, rfl, hwrites⟩ := Encoding.encodeHeader_ok hw.wellFormed ha.sized hencode
  have hv := hwrites.valid
  rw [Header.ofPuff_puff hv.toOpens]
  obtain rfl : bits = h.bits :=
    List.append_cancel_left (hwritten.symm.trans hwrites.writer.bits_eq)
  rw [← hr.bits_eq] at hread
  refine ⟨fun hmore hroom => Decoding.decodeHeader_of_seven (s := ⟨b, r, sink⟩) hr.wellFormed
    hb.sized hv hread hmore hroom, fun n sB hdecode => ?_⟩
  obtain ⟨h', -, hreads⟩ := Decoding.decodeHeader_ok hr.wellFormed hb.sized hdecode
  obtain rfl := hreads.eq_of_bits hv hread
  obtain ⟨hlitA, hdistA⟩ := hwrites.answersSymbols
  obtain ⟨hlitB, hdistB⟩ := hreads.answersKeys
  refine ⟨fun s l key => ?_, fun s hs l key => hdistB.ok_iff_code hdistA hs l key,
    fun s l key hkey => ?_⟩
  · rw [hlitB.ok_iff, hlitA.ok_iff]
    exact ⟨fun hcode => ⟨Nat.lt_of_lt_of_le hcode.lt_length hv.length_litLen_le, hcode⟩,
      fun hcode => hcode.2⟩
  · have hcode := (hdistB.ok_iff key s l).mp hkey
    have hpos : 0 < h'.distance.lengthOf s := hcode.lengthOf_eq ▸ hcode.pos
    refine ⟨?_, fun hs => ?_, fun hs => hdistA.unused s fun _ _ hand => absurd hand.1 (by omega)⟩
    · by_contra hlt
      obtain ⟨-, -, -, hle⟩ := hv.repeatPrevious_of_overshoot (by omega) hpos
      exact hlt hle
    · obtain ⟨extra, hlast, htotal, -⟩ := hv.repeatPrevious_of_overshoot hs hpos
      refine ⟨⟨extra, ?_⟩, htotal⟩
      rw [hv.getLast?_puff, hlast]
      rfl

end Codec

/-- A header whose last token goes past the end by two: it has 30 distances, and 32 lengths for them,
the last four of which are two. Its tokens are given by their bytes. -/
def Header.surplus : Header where
  hlit := 0
  hdist := 29
  hclen := 12
  sent := [2, 0, 1] ++ List.replicate 12 0 ++ [2]
  tokens := [155, 135, 2, 45, 2, 16].filterMap Token.ofByte?

theorem Header.surplus_valid : surplus.Valid where
  hlit_le := by decide
  hdist_le := by decide
  hclen_le := by decide
  length_sent := by decide
  sent_le := by decide +kernel
  code_feasible := by decide +kernel
  coded := by decide +kernel
  covers := (covers_iff (by decide)).mpr (by decide)
  expands := rfl
  litLen_feasible := by decide +kernel
  distance_feasible := by decide +kernel

namespace Codec

/-- Of the last three distance symbols the first can be encoded and decoded, the others only decoded. -/
theorem symbol_iff_code_surplus : ∃ sA n sB,
    Encoding.encodeHeader Header.surplus.puff ⟨.new, .ofBuffer (List.replicate 16 0)⟩ = .ok () sA ∧
    Decoding.decodeHeader ⟨.new, .ofBytes [160, 179, 16, 0, 0, 0, 0, 144, 191, 117, 34, 13, 0],
      .ofBuffer (List.replicate maxPuffSize 0)⟩ = .ok n sB ∧
    sA.codec.distanceCode 29 = .ok (2, 2) ∧ sB.codec.distanceSymbol 2 = .ok (29, 2) ∧
    sB.codec.distanceSymbol 1 = .ok (30, 2) ∧
    sA.codec.distanceCode 30 = .error (.invalid (.unusedSymbol 30)) := by
  have hv := Header.surplus_valid
  have hbits : Bits.ofBytes [160, 179, 16, 0, 0, 0, 0, 144, 191, 117, 34, 13, 0] =
      Header.surplus.bits ++ List.replicate 10 false := by decide +kernel
  have hroom : Header.surplus.bits.length ≤ (BitWriter.ofBuffer (List.replicate 16 0)).room := by
    decide +kernel
  rcases Encoding.encodeHeader_run (s := ⟨.new, .ofBuffer (List.replicate 16 0)⟩)
    (BitWriter.wellFormed_ofBuffer _) sized_new hv with ⟨-, sA, hencode, hwrites⟩ | ⟨hlt, -⟩
  · obtain ⟨hsome, hinverse⟩ := symbol_iff_code .new .new .start .start hencode
      hwrites.writer.bits_eq hbits
    have hsink : maxPuffSize = (ByteSink.ofBuffer (List.replicate maxPuffSize 0)).room :=
      List.length_replicate.symm
    obtain ⟨n, sB, hdecode⟩ := hsome (by decide) (hsink ▸ hv.length_puff_le)
    obtain ⟨-, hdist, hpast⟩ := hinverse n sB hdecode
    obtain ⟨h, -, hreads⟩ := Decoding.decodeHeader_ok (BitReader.wellFormed_ofBytes _) sized_new
      hdecode
    obtain rfl := hreads.eq_of_bits hv ((BitReader.bits_ofBytes _).trans hbits)
    have hcode : sA.codec.distanceCode 29 = .ok (2, 2) :=
      (hwrites.answersSymbols.2.ok_iff 29 2 2).mpr ⟨by decide, rfl, by decide, by decide +kernel⟩
    have hsymbol : sB.codec.distanceSymbol 1 = .ok (30, 2) :=
      (hreads.answersKeys.2.ok_iff 1 30 2).mpr ⟨rfl, by decide, by decide +kernel⟩
    exact ⟨sA, n, sB, hencode, hdecode, hcode, (hdist 29 (by decide) 2 2).mpr hcode, hsymbol,
      (hpast 30 2 1 hsymbol).2.2 (by decide)⟩
  · exact absurd hroom (Nat.not_le.mpr hlt)

end Codec
end DeflateHeader
