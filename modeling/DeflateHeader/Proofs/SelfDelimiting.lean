import DeflateHeader.Proofs.HeaderPairs
import DeflateHeader.Proofs.HeaderWriting
import DeflateHeader.Proofs.ReachableCodecs

/-!
# Accepted buffers delimit themselves

A buffer that the encoder accepts has no byte too few and none too many. Wherever it is cut, in the
fields, in the packed lengths or in the tokens, the encoder runs out of input
(`encodeHeader_beforeTokens`, `encodeHeader_missingTokens`); whatever is put after it, all checks of the
contents pass and only the last one finds bytes left over (`encodeHeader_leftOver`). In both cases no
tables are loaded. So an accepted buffer neither begins another one nor is begun by one.
-/

namespace DeflateHeader

namespace Encoding

variable {h : Header} {s : Encoding} {buf : List UInt8}

/-! ## A buffer that is cut -/

/-- Before the tokens nothing but a missing byte can go wrong with the first part of a right opening. -/
theorem encodeHeader_beforeTokens (ho : h.Opens) (hc : s.codec.Sized) (hq : buf <+: h.puff)
    (hlt : buf.length < h.openingPuff.length) :
    ∃ s', encodeHeader buf s = .error .insufficientInput s' := by
  obtain ⟨c, hbegin, -⟩ := Codec.begin_ok hc
  unfold encodeHeader
  rw [run_bind_ok (onCodec_ok hbegin)]
  obtain _ | ⟨hlit, _ | ⟨hdist, _ | ⟨hclen, body⟩⟩⟩ := buf
  · exact ⟨_, rfl⟩
  · exact ⟨_, rfl⟩
  · exact ⟨_, rfl⟩
  · rw [Header.puff_eq, List.cons_prefix_cons, List.cons_prefix_cons, List.cons_prefix_cons] at hq
    obtain ⟨rfl, rfl, rfl, -⟩ := hq
    obtain ⟨hl, hd, hcl⟩ := ho.toNat_fieldBytes
    have hshort : body.length < h.sizes.packedSize := by
      rw [Header.length_openingPuff, ← length_pack, ← ho.packedSize_eq] at hlt
      simp only [List.length_cons] at hlt
      omega
    simp only [hl, hd, hcl, ho.ofFields_eq]
    exact ⟨_, encodeBody_short hshort⟩

/-- Among the tokens of a valid header each has a code and something to repeat, so the encoder gets to
the end of them. -/
theorem encodeHeader_missingTokens {ts : List Token} (hv : h.Valid) (hc : s.codec.Sized)
    (hs : s.writer.WellFormed) (hts : ts <+: h.tokens) (hne : ts ≠ h.tokens)
    (hroom : h.bits.length ≤ s.writer.room) :
    ∃ s', encodeHeader (h.openingPuff ++ ts.map Token.toByte) s = .error .insufficientInput s' := by
  obtain ⟨more, hmore⟩ := hts
  obtain ⟨c₀, hbegin, hready, -⟩ := Codec.begin_ok hc
  obtain ⟨c₁, hprepare, hready₁, hlens, henc⟩ := prepareCode_run hv.toOpens hready s.writer
  rw [encodeHeader_opens hv.toOpens hbegin, run_bind_ok hprepare, writeBody]
  have hsplit : h.bits.length =
      h.openingBits.length + ((tokenBits h.code ts).length + (tokenBits h.code more).length) := by
    rw [Header.bits, ← hmore, tokenBits, List.flatMap_append, List.length_append, List.length_append,
      tokenBits, tokenBits]
  rcases Emits.writeOpening hv.toOpens hlens s.writer hs with ⟨-, w, hopening, hw⟩ | ⟨hfull, -⟩
  · have hleft := hw.room_eq
    have hshort : totalCount ts < h.sizes.total := by
      have hlt : ts.length < h.tokens.length := by
        rw [← hmore, List.length_append]
        have : more ≠ [] := fun hnil => hne (by rw [← hmore, hnil, List.append_nil])
        have := List.length_pos_iff.mpr this
        omega
      have htake : h.tokens.take ts.length = ts := by rw [← hmore, List.take_left]
      exact htake ▸ hv.covers.totalCount_take_lt hlt
    obtain ⟨lens, hexp⟩ : ∃ lens, expandAll [] ts = some lens := by
      have hexp := hv.expands
      rw [← hmore, expandAll_append] at hexp
      obtain ⟨lens, hlens, -⟩ := Option.bind_eq_some_iff.mp hexp
      exact ⟨lens, hlens⟩
    obtain ⟨p, hp⟩ := LengthWriting.writeTokens_short (s := ⟨w, []⟩) henc
      (by rw [hready₁.codeLength.size]; decide) (by rw [Header.code, length_ofSent]; decide)
      hv.code_feasible hw.wellFormed hshort
      (fun t ht => hv.coded t (hmore ▸ List.mem_append_left more ht)) hexp (by dsimp only; omega)
    rw [run_bind_ok hopening, run_bind_ok run_get, hlens]
    exact ⟨_, run_bind_error (writeLengths_error (s := ⟨c₁, w⟩) hp)⟩
  · omega

/-- Every strict first part of the puff form of a valid header ends too early. -/
theorem encodeHeader_cut (hv : h.Valid) (hc : s.codec.Sized) (hs : s.writer.WellFormed)
    (hroom : h.bits.length ≤ s.writer.room) (hq : buf <+: h.puff) (hne : buf ≠ h.puff) :
    ∃ s', encodeHeader buf s = .error .insufficientInput s' := by
  by_cases hlt : buf.length < h.openingPuff.length
  · exact encodeHeader_beforeTokens hv.toOpens hc hq hlt
  · -- A first part that has the whole opening has some of the tokens after it.
    obtain ⟨bytes, rfl⟩ := List.prefix_of_prefix_length_le (List.prefix_append _ _) hq
      (Nat.le_of_not_lt hlt)
    rw [Header.puff, List.prefix_append_right_inj] at hq
    rw [Header.puff, ne_eq, List.append_cancel_left_eq] at hne
    rw [List.prefix_iff_eq_take.mp hq, ← List.map_take] at hne ⊢
    exact encodeHeader_missingTokens hv hc hs (List.take_prefix _ _) (fun heq => hne (by rw [heq])) hroom

/-! ## A buffer with more bytes -/

/-- The encoder goes through all of a valid header before it finds bytes that are left over. -/
theorem encodeHeader_leftOver (hv : h.Valid) (hc : s.codec.Sized) (hs : s.writer.WellFormed)
    (hroom : h.bits.length ≤ s.writer.room) (hne : buf ≠ []) :
    ∃ s', encodeHeader (h.puff ++ buf) s =
      .error (.invalid (.trailingBytes h.puff.length (h.puff.length + buf.length))) s' := by
  obtain ⟨c₀, hbegin, hready, -⟩ := Codec.begin_ok hc
  obtain ⟨c₁, hprepare, hready₁, hlens, henc⟩ := prepareCode_run hv.toOpens hready s.writer
  have hbytes : h.puff ++ buf = h.openingPuff ++ (h.tokens.map Token.toByte ++ buf) :=
    List.append_assoc ..
  have hsize : (h.openingPuff ++ (h.tokens.map Token.toByte ++ buf)).length =
      h.puff.length + buf.length := by rw [← hbytes, List.length_append]
  have hused : 3 + h.sizes.packedSize + h.tokens.length = h.puff.length := by
    rw [Header.length_puff, hv.packedSize_eq, length_pack]
  have hpos := List.length_pos_iff.mpr hne
  rw [hbytes, encodeHeader_opens hv.toOpens hbegin, run_bind_ok hprepare, hsize]
  rcases writeBody_run hv.toOpens hv.covers hv.coded hv.expands hready₁ hlens henc hs
    (h.puff.length + buf.length) buf with ⟨-, w, -, hrun⟩ | ⟨hfull, -⟩
  · rw [hrun, ← hused]
    exact loadTables_trailing h.sizes w hready₁ hv.length_lens_le
      (Nat.le_trans (Nat.le_add_right _ _) hv.total_le_length_lens) hv.litLen_feasible
      hv.distance_feasible (by omega)
  · omega

end Encoding

open Encoding

/-- If a buffer is accepted, every strict first part of it ends too early, and with bytes after it, whatever
they are, it is refused for them alone, with any codec and any writer that has room for the header. No
tables are loaded either way. -/
theorem accepted_selfDelimiting {puff buffer : List UInt8} {c : Codec} {w : BitWriter} {s : Encoding}
    (hc : c.Reachable) (hw : w.Reachable buffer) (hrun : encodeHeader puff ⟨c, w⟩ = .ok () s)
    {buffer' : List UInt8} {c' : Codec} {w' : BitWriter} (hc' : c'.Reachable)
    (hw' : w'.Reachable buffer') (hroom : s.writer.bitCount ≤ w.bitCount + w'.room) :
    (∀ cut, cut <+: puff → cut ≠ puff → ∃ s', encodeHeader cut ⟨c', w'⟩ = .error .insufficientInput s' ∧
      s'.codec.loaded = none) ∧
    ∀ more, more ≠ [] → ∃ s', encodeHeader (puff ++ more) ⟨c', w'⟩ =
        .error (.invalid (.trailingBytes puff.length (puff.length + more.length))) s' ∧
      s'.codec.loaded = none := by
  obtain ⟨h, rfl, hwrites⟩ := encodeHeader_ok hw.wellFormed hc.sized hrun
  have hcount := hwrites.writer.bitCount_eq
  have hfits : h.bits.length ≤ w'.room := by
    dsimp only at hcount
    omega
  refine ⟨fun cut hcut hne => ?_, fun more hne => ?_⟩
  · obtain ⟨s', herr⟩ := encodeHeader_cut (s := ⟨c', w'⟩) hwrites.valid hc'.sized hw'.wellFormed hfits
      hcut hne
    exact ⟨s', herr, loaded_of_encodeHeader hc'.sized herr⟩
  · obtain ⟨s', herr⟩ := encodeHeader_leftOver (s := ⟨c', w'⟩) hwrites.valid hc'.sized hw'.wellFormed
      hfits hne
    exact ⟨s', herr, loaded_of_encodeHeader hc'.sized herr⟩

/-- The plain header without its last byte, and with a byte more that stands for no token. -/
theorem accepted_selfDelimiting_plain : ∃ s,
    encodeHeader Header.plain.puff ⟨.new, .ofBuffer (List.replicate 16 0)⟩ = .ok () s ∧
    (∃ s', encodeHeader (Header.plain.puff.take 15) ⟨.new, .ofBuffer (List.replicate 16 0)⟩ =
      .error .insufficientInput s' ∧ s'.codec.loaded = none) ∧
    ∃ s', encodeHeader (Header.plain.puff ++ [0xFF]) ⟨.new, .ofBuffer (List.replicate 16 0)⟩ =
      .error (.invalid (.trailingBytes 16 17)) s' ∧ s'.codec.loaded = none := by
  have hfits : Header.plain.bits.length ≤ (BitWriter.ofBuffer (List.replicate 16 0)).room := by
    rw [BitWriter.room_ofBuffer, Header.length_bits]
    decide +kernel
  obtain ⟨-, s, hrun, hwrites⟩ | ⟨hfull, -⟩ :=
    encodeHeader_run (s := ⟨.new, .ofBuffer (List.replicate 16 0)⟩)
      (BitWriter.wellFormed_ofBuffer _) Codec.Reachable.new.sized Header.plain_valid
  · have hcount := hwrites.writer.bitCount_eq
    have hroom : s.writer.bitCount ≤ (BitWriter.ofBuffer (List.replicate 16 0)).bitCount +
        (BitWriter.ofBuffer (List.replicate 16 0)).room := by
      dsimp only at hcount
      omega
    obtain ⟨hcut, hmore⟩ := accepted_selfDelimiting .new .start hrun .new .start hroom
    have hsize : Header.plain.puff.length = 16 := by decide +kernel
    have hless : Header.plain.puff.take 15 ≠ Header.plain.puff := by decide +kernel
    rw [hsize] at hmore
    exact ⟨s, hrun, hcut _ (List.take_prefix 15 _) hless, hmore [0xFF] (List.cons_ne_nil _ _)⟩
  · exact absurd hfits (Nat.not_le.mpr hfull)

end DeflateHeader
