import DeflateHeader.Proofs.PuffGrammar
import DeflateHeader.Proofs.Streams

/-!
# Round trips

A header that `puff` returns is written back by `huff` bit for bit, whatever either codec was used
for before (`Codec.huff_restores`), so `verify` never reports a difference.

In the other direction the decoder needs bits to look at: before each token it reads as many as the
longest code has. `puff` takes what `huff` wrote if that many bits follow the start of the last
token, and otherwise asks for more input (`Codec.puff_of_huff`). One byte after the stream is always
enough.
-/

namespace DeflateHeader

/-- The bits in `x` are those of the header `p` in the stream that `data` holds, and less than a
byte of zeros follows them. -/
structure Huffed.Restores (x : Huffed) (data : List UInt8) (p : Puffed) : Prop where
  bits_eq : x.bits = p.bits
  bits_le : p.bits ≤ 8 * (data.drop p.containerSize).length
  take_eq : (Bits.ofBytes x.bytes).take p.bits =
    (Bits.ofBytes (data.drop p.containerSize)).take p.bits
  drop_eq : ∃ n < 8, (Bits.ofBytes x.bytes).drop p.bits = List.replicate n false

theorem BitWriter.padding_lt (n : Nat) : padding n < 8 := by
  unfold padding
  omega

/-- Two byte strings agree in their first bits if these are the same and are there. -/
theorem Bits.agree_eq_true {n : Nat} {a b : List UInt8} (ha : n ≤ 8 * a.length)
    (h : (ofBytes a).take n = (ofBytes b).take n) : agree n a b = true := by
  have hlen := congrArg List.length h
  rw [List.length_take, List.length_take, length_ofBytes, length_ofBytes] at hlen
  have hneeded : n ≤ 8 * ((n + 7) / 8) := by omega
  have htake : ∀ c, (ofBytes (c.take ((n + 7) / 8))).take n = (ofBytes c).take n := by
    intro c
    rw [← take_ofBytes, List.take_take, Nat.min_eq_left hneeded]
  unfold agree
  dsimp only
  rw [htake, htake, h]
  simp only [beq_self_eq_true, Bool.and_true, Bool.and_eq_true, decide_eq_true_eq]
  omega

namespace Codec

variable {c c' d : Codec} {data : List UInt8} {container : Container} {p : Puffed}

theorem Reachable.of_puff (hc : c.Reachable) (hrun : Codec.puff data container c = .ok p c') :
    c'.Reachable := by
  have hr := hc.puff data container
  rwa [hrun] at hr

theorem Sized.of_puff (hc : c.Sized) (hrun : puff data container c = .ok p c') : c'.Sized :=
  keeps_ok (keeps_puff sized_lasting data container) hc hrun

/-! ## Decode, then encode -/

/-- Encoding a header that was decoded gives its bits back. -/
theorem huff_restores (hc : c.Sized) (hd : d.Sized) (hpuff : puff data container c = .ok p c') :
    ∃ x d', huff p.puff p.block.isFinal d = .ok x d' ∧ x.Restores data p := by
  obtain ⟨stream, h, isFinal, hstrip, hv, hbits, rfl, -⟩ := puff_ok hc hpuff
  obtain ⟨bytes, d', hrun, hbytes, -⟩ := huff_run hd hv isFinal
  have hlen : 3 + h.bits.length = (blockBits isFinal ++ h.bits).length := by
    rw [List.length_append, length_blockBits]
  refine ⟨_, d', hrun, rfl, ?_, ?_, ?_⟩
  · show 3 + h.bits.length ≤ 8 * (data.drop (data.length - stream.length)).length
    rw [Container.drop_of_strip hstrip, hlen, ← Bits.length_ofBytes]
    exact hbits.length_le
  · show (Bits.ofBytes bytes).take (3 + h.bits.length) =
      (Bits.ofBytes (data.drop (data.length - stream.length))).take (3 + h.bits.length)
    rw [Container.drop_of_strip hstrip, hbytes, hlen, List.take_left]
    exact List.prefix_iff_eq_take.mp hbits
  · refine ⟨_, BitWriter.padding_lt (3 + h.bits.length), ?_⟩
    show (Bits.ofBytes bytes).drop (3 + h.bits.length) = _
    rw [hbytes, hlen, List.drop_left]

/-- `verify` encodes a header that can be decoded, and finds no difference. -/
theorem huff_of_puff (hc : c.Sized) (hpuff : puff data container c = .ok p c') :
    ∃ x c'', huff p.puff p.block.isFinal c' = .ok x c'' ∧
      verify data container c = .ok ⟨p, true⟩ c'' := by
  obtain ⟨x, c'', hhuff, hx⟩ := huff_restores hc (hc.of_puff hpuff) hpuff
  refine ⟨x, c'', hhuff, ?_⟩
  have hagree := Bits.agree_eq_true hx.bits_le hx.take_eq.symm
  unfold verify
  rw [run_bind_ok hpuff, run_bind_ok hhuff]
  simp only [hx.bits_eq, hagree, beq_self_eq_true, Bool.and_self]
  rfl

theorem verify_run (hc : c.Sized) (hpuff : puff data container c = .ok p c') :
    ∃ c'', verify data container c = .ok ⟨p, true⟩ c'' := by
  obtain ⟨_, c'', -, hverify⟩ := huff_of_puff hc hpuff
  exact ⟨c'', hverify⟩

theorem puff_of_verify {v : Verified} (h : verify data container c = .ok v c') :
    ∃ c'', puff data container c = .ok v.header c'' := by
  unfold verify at h
  obtain ⟨header, c₁, hpuff, h⟩ := ok_of_bind h
  obtain ⟨x, c₂, -, h⟩ := ok_of_bind h
  refine ⟨c₁, ?_⟩
  rw [hpuff]
  dsimp only at h
  split at h
  · cases h
    rfl
  · obtain ⟨_, c₃, -, h⟩ := ok_of_bind h
    cases h
    rfl

/-- Whatever was done with the codecs before, encoding the header that was decoded from a stream
succeeds and gives its bits back. So `verify` succeeds if and only if `puff` does, with the same
header, and always reports that the bits are the same. -/
theorem puff_huff_verify (hc : c.Reachable) (data : List UInt8) (container : Container) :
    (∀ p c', puff data container c = .ok p c' → c'.Reachable ∧
      ∀ d : Codec, d.Reachable →
        ∃ x d', huff p.puff p.block.isFinal d = .ok x d' ∧ x.Restores data p) ∧
    ∀ v, (∃ c', verify data container c = .ok v c') ↔
      v.isSame = true ∧ ∃ c', puff data container c = .ok v.header c' := by
  refine ⟨fun p c' h => ⟨hc.of_puff h, fun d hd => huff_restores hc.sized hd.sized h⟩, ?_⟩
  intro v
  constructor
  · rintro ⟨c', hv⟩
    obtain ⟨c₁, hpuff⟩ := puff_of_verify hv
    obtain ⟨c₂, hrun⟩ := verify_run hc.sized hpuff
    rw [hv] at hrun
    injection hrun with hsame
    exact ⟨congrArg Verified.isSame hsame, c₁, hpuff⟩
  · rintro ⟨hsame, c', hpuff⟩
    obtain ⟨header, isSame⟩ := v
    dsimp only at hsame hpuff
    subst hsame
    exact verify_run hc.sized hpuff

/-- The plain stream is decoded, and encoding the result restores it. -/
theorem huff_plainStream : ∃ p c' x d', puff plainStream .raw new = .ok p c' ∧
    huff p.puff p.block.isFinal new = .ok x d' ∧ x.Restores plainStream p := by
  obtain ⟨c', hpuff⟩ := puff_plainStream sized_new
  obtain ⟨x, d', hhuff, hx⟩ :=
    ((puff_huff_verify .new plainStream .raw).1 _ c' hpuff).2 new .new
  exact ⟨_, c', x, d', hpuff, hhuff, hx⟩

/-! ## Encode, then decode -/

open Header

/-- What was encoded is decoded again, whatever was done with the codecs before, as the same header
with the same lengths in both codecs: if after the `start` of the last token there are as many bits
as the longest code has. Otherwise the decoder asks for more input, which never happens if anything
follows. -/
theorem puff_of_huff {puff : List UInt8} {isFinal : Bool} {x : Huffed} (hc : c.Reachable)
    (hd : d.Reachable) (hrun : huff puff isFinal c = .ok x c') (tail : List UInt8) :
    ∃ (last : Token) (start : Nat), puff.getLast? = some last.toByte ∧
      start + ((ofPuff puff).code.lengthOf last.symbol + last.extraWidth) = x.bits ∧
      ((start + (ofPuff puff).code.maxLength ≤ 8 * (x.bytes.length + tail.length) ∧
          ∃ d', Codec.puff (x.bytes ++ tail) .raw d =
              .ok ⟨⟨isFinal, .dynamic⟩, puff, x.bits, 0⟩ d' ∧
            d'.litLen.lens = c'.litLen.lens ∧ d'.distance.lens = c'.distance.lens ∧
            d'.codeLength.lens = c'.codeLength.lens) ∨
        (8 * (x.bytes.length + tail.length) < start + (ofPuff puff).code.maxLength ∧ tail = [] ∧
          ∃ d', Codec.puff (x.bytes ++ tail) .raw d = .error .insufficientInput d')) := by
  obtain ⟨h, rfl, hv⟩ := huff_ok hc.sized hrun
  obtain ⟨bytes, c₁, hok, hbytes, hholds⟩ := huff_run hc.sized hv isFinal
  obtain ⟨rfl, rfl⟩ : x = ⟨bytes, 3 + h.bits.length⟩ ∧ c' = c₁ := by
    injection hrun.symm.trans hok with hx hc
    exact ⟨hx, hc⟩
  have hne := hv.tokens_ne_nil
  have hlast := length_bits_le_of_mem h.code (List.getLast_mem hne)
  rw [Token.length_bits] at hlast
  have hlen := Header.length_bits h
  -- The bits that were written are there, and begin what is decoded.
  have hcount : 3 + h.bits.length ≤ 8 * bytes.length := by
    rw [← Bits.length_ofBytes, hbytes, List.length_append, List.length_append, length_blockBits]
    omega
  have hbegins : blockBits isFinal ++ h.bits <+: Bits.ofBytes (bytes ++ tail) := by
    rw [Bits.ofBytes_append, hbytes, List.append_assoc]
    exact List.prefix_append _ _
  have hmax : h.code.maxLength ≤ 7 := hv.maxLength_le
  rw [ofPuff_puff hv.toOpens]
  refine ⟨h.tokens.getLast hne, 3 + h.bits.length -
    (h.code.lengthOf (h.tokens.getLast hne).symbol + (h.tokens.getLast hne).extraWidth), ?_, ?_, ?_⟩
  · rw [Header.puff, List.getLast?_append_of_ne_nil _ (by simpa using hne), List.getLast?_map,
      List.getLast?_eq_some_getLast hne]
    rfl
  · dsimp only
    omega
  · have hstrip : Container.strip .raw (bytes ++ tail) = .ok (bytes ++ tail) := rfl
    rcases puff_run hd.sized hstrip hv hbegins with ⟨hlook, d', hpuff, hh⟩ | ⟨hlook, d', hpuff⟩
    · rw [lookahead_iff_getLast hne, Token.length_bits, List.length_append] at hlook
      refine .inl ⟨by dsimp only; omega, d', ?_, ?_, ?_, ?_⟩
      · rw [hpuff, Nat.sub_self]
        rfl
      · rw [hh.litLen, hholds.litLen]
      · rw [hh.distance, hholds.distance]
      · rw [hh.codeLength, hholds.codeLength]
    · rw [lookahead_iff_getLast hne, Token.length_bits, List.length_append] at hlook
      have htail : tail.length = 0 := by omega
      exact .inr ⟨by dsimp only; omega, List.length_eq_zero_iff.mp htail, d', hpuff⟩

/-- What was encoded of the plain header is decoded again, with a byte after it. -/
theorem puff_of_huff_plain : ∃ x c' d', huff plain.puff false new = .ok x c' ∧
    Codec.puff (x.bytes ++ [255]) .raw new = .ok ⟨⟨false, .dynamic⟩, plain.puff, x.bits, 0⟩ d' := by
  obtain ⟨bytes, c', hrun, -, -⟩ := huff_run sized_new plain_valid false
  obtain ⟨last, start, -, -, ⟨-, d', hpuff, -⟩ | ⟨-, hnil, -⟩⟩ :=
    puff_of_huff .new .new hrun [255]
  · exact ⟨_, c', d', hrun, hpuff⟩
  · cases hnil

end Codec
end DeflateHeader
