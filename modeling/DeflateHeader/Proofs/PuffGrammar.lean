import DeflateHeader.Proofs.ReachableCodecs

/-!
# The grammar of puff buffers

`Header.ofPuff` reads a puff buffer as a header without any check. `Grammatical` lists what a buffer
must be like for that to be right: it then is the puff form of a valid header, and only then
(`grammatical_iff`). The encoder accepts exactly the grammatical buffers
(`Encoding.encodeHeader_ok_iff`).
-/

namespace DeflateHeader

/-! ## Reading a buffer -/

namespace Header

/-- How many bytes the packed lengths of a puff buffer take. -/
def packedSize (puff : List UInt8) : Nat := ((puff.getD 2 0).toNat + 5) / 2

/-- The packed lengths of a puff buffer. -/
def packed (puff : List UInt8) : List UInt8 := (puff.drop 3).take (packedSize puff)

/-- The bytes of a puff buffer that stand for tokens. -/
def tokenBytes (puff : List UInt8) : List UInt8 := puff.drop (3 + packedSize puff)

/-- What a puff buffer says: a field that is missing is 0, and a byte that stands for no token is
left out. -/
def ofPuff (puff : List UInt8) : Header where
  hlit := (puff.getD 0 0).toNat
  hdist := (puff.getD 1 0).toNat
  hclen := (puff.getD 2 0).toNat
  sent := (Encoding.nibbles (packed puff)).take ((puff.getD 2 0).toNat + 4)
  tokens := (tokenBytes puff).filterMap Token.ofByte?

variable {h : Header} {puff : List UInt8}

theorem packedSize_puff (ho : h.Opens) : packedSize h.puff = (pack h.sent).length := by
  rw [packedSize, puff_eq, length_pack, ho.length_sent]
  show ((UInt8.ofNat h.hclen).toNat + 5) / 2 = _
  rw [ho.toNat_fieldBytes.2.2]

theorem packed_puff (ho : h.Opens) : packed h.puff = pack h.sent := by
  rw [packed, packedSize_puff ho, puff_eq]
  exact List.take_left

theorem tokenBytes_puff (ho : h.Opens) : tokenBytes h.puff = h.tokens.map Token.toByte := by
  rw [tokenBytes, packedSize_puff ho, puff_eq, Nat.add_comm]
  exact List.drop_left

theorem filterMap_toByte (ts : List Token) : (ts.map Token.toByte).filterMap Token.ofByte? = ts := by
  induction ts with
  | nil => rfl
  | cons t ts ih => rw [List.map_cons, List.filterMap_cons, Token.ofByte?_toByte, ih]

/-- Bytes that all stand for tokens are the bytes of these tokens. -/
theorem map_toByte_filterMap {bytes : List UInt8} (h : ∀ b ∈ bytes, b.toNat ≤ 155) :
    (bytes.filterMap Token.ofByte?).map Token.toByte = bytes := by
  induction bytes with
  | nil => rfl
  | cons b bytes ih =>
    obtain ⟨t, ht⟩ : ∃ t, Token.ofByte? b = some t := by
      refine Option.ne_none_iff_exists'.mp fun hn => ?_
      have := Token.ofByte?_eq_none_iff.mp hn
      have := h b (by simp)
      omega
    rw [List.filterMap_cons, ht, List.map_cons, ← Token.ofByte?_eq_some_iff.mp ht,
      ih fun c hc => h c (by simp [hc])]

/-- A header is what its puff form says. -/
theorem ofPuff_puff (ho : h.Opens) : ofPuff h.puff = h := by
  obtain ⟨hl, hd, hc⟩ := ho.toNat_fieldBytes
  have hclen : (h.puff.getD 2 0).toNat = h.hclen := by rw [puff_eq]; exact hc
  ext1
  · show (h.puff.getD 0 0).toNat = _
    rw [puff_eq]
    exact hl
  · show (h.puff.getD 1 0).toNat = _
    rw [puff_eq]
    exact hd
  · exact hclen
  · show (Encoding.nibbles (packed h.puff)).take ((h.puff.getD 2 0).toNat + 4) = _
    rw [packed_puff ho, hclen, ho.nibbles_pack_sent]
  · show (tokenBytes h.puff).filterMap Token.ofByte? = _
    rw [tokenBytes_puff ho, filterMap_toByte]

end Header

/-! ## Tokens with something to repeat -/

section Expansion

variable {lens : Lengths} {t : Token} {ts : List Token}

/-- Once there is a length, every token has one to repeat. -/
theorem exists_expandAll_of_ne_nil (h : lens ≠ []) (ts : List Token) :
    ∃ lens', expandAll lens ts = some lens' := by
  induction ts generalizing lens with
  | nil => exact ⟨lens, rfl⟩
  | cons t ts ih =>
    cases hv : t.value? lens with
    | none => exact absurd (Token.value?_eq_none_iff.mp hv).2 h
    | some value =>
      rw [expandAll_cons_of_some hv]
      exact ih (by simp [h])

/-- At the start only the first token can lack a length to repeat. -/
theorem expandAll_nil_eq_none_iff :
    expandAll [] ts = none ↔ ∃ t, ts.head? = some t ∧ t.symbol = 16 := by
  cases ts with
  | nil => simp [expandAll]
  | cons t ts =>
    cases hv : t.value? [] with
    | none =>
      have ht := (Token.value?_eq_none_iff.mp hv).1
      simp [expandAll, hv, ht]
    | some value =>
      have ht : t.symbol ≠ 16 := fun h16 => by
        rw [Token.value?_eq_none_iff.mpr ⟨h16, rfl⟩] at hv
        cases hv
      have hne : [] ++ List.replicate t.count value ≠ [] := by
        have := t.count_pos
        simp only [List.nil_append, ne_eq, List.replicate_eq_nil_iff]
        omega
      obtain ⟨lens', hlens⟩ := exists_expandAll_of_ne_nil hne ts
      rw [expandAll_cons_of_some hv, hlens]
      simp [ht]

/-- The bytes of the tokens that repeat the length before. -/
theorem Token.symbol_eq_sixteen_iff : t.symbol = 16 ↔ 16 ≤ t.toByte.toNat ∧ t.toByte.toNat ≤ 19 := by
  cases t with
  | length len | repeatZero extra | repeatZeroLong extra =>
    simp only [Token.symbol, Token.toByte, UInt8.toNat_ofNat']
    omega
  | repeatPrevious extra =>
    simp only [Token.symbol, Token.toByte, UInt8.toNat_ofNat', true_iff]
    omega

end Expansion

/-! ## The grammar -/

open Header

/-- What a puff buffer must be like. -/
structure Grammatical (puff : List UInt8) : Prop where
  three_le : 3 ≤ puff.length
  hlit_le : (ofPuff puff).hlit ≤ 29
  hdist_le : (ofPuff puff).hdist ≤ 29
  hclen_le : (ofPuff puff).hclen ≤ 15
  /-- The packed lengths are all there. -/
  packed_le : 3 + packedSize puff ≤ puff.length
  nibble_le : ∀ nibble ∈ Encoding.nibbles (packed puff), nibble.toNat ≤ 7
  /-- The low half of the last byte is zero if the number of lengths is odd. -/
  padding : ((ofPuff puff).hclen + 4) % 2 = 1 →
    ∀ last, (packed puff).getLast? = some last → last &&& 0x0F = 0
  /-- The Kraft sum of the code-length code is at most 1. -/
  code_kraft_le : (ofPuff puff).code.kraft ≤ 2 ^ maxCodeBits
  tokenBytes_ne_nil : tokenBytes puff ≠ []
  tokenByte_le : ∀ byte ∈ tokenBytes puff, byte.toNat ≤ 155
  /-- Every token has a code. -/
  coded : ∀ t ∈ (ofPuff puff).tokens, 0 < (ofPuff puff).code.lengthOf t.symbol
  /-- The first token does not repeat the length before. -/
  first : ∀ byte, (tokenBytes puff).head? = some byte → ¬ (16 ≤ byte.toNat ∧ byte.toNat ≤ 19)
  /-- The last token is needed. -/
  dropLast_lt : totalCount (ofPuff puff).tokens.dropLast < (ofPuff puff).sizes.total
  /-- The tokens stand for all lengths. -/
  total_le : (ofPuff puff).sizes.total ≤ totalCount (ofPuff puff).tokens
  litLen_kraft_le : (ofPuff puff).litLen.kraft ≤ 2 ^ maxCodeBits
  distance_kraft_le : (ofPuff puff).distance.kraft ≤ 2 ^ maxCodeBits

namespace Grammatical

variable {puff : List UInt8}

/-- A grammatical buffer is the puff form of what it says. -/
theorem puff_ofPuff (hg : Grammatical puff) : (ofPuff puff).puff = puff := by
  obtain ⟨hlit, hdist, hclen, body, rfl⟩ : ∃ hlit hdist hclen body,
      puff = hlit :: hdist :: hclen :: body := by
    obtain _ | ⟨hlit, _ | ⟨hdist, _ | ⟨hclen, body⟩⟩⟩ := puff
    · exact absurd hg.three_le (by decide)
    · exact absurd hg.three_le (by simp)
    · exact absurd hg.three_le (by simp)
    · exact ⟨hlit, hdist, hclen, body, rfl⟩
  have hlen := hg.packed_le
  simp only [packedSize, List.getD_cons_succ, List.getD_cons_zero, List.length_cons] at hlen
  have htokens : tokenBytes (hlit :: hdist :: hclen :: body) = body.drop ((hclen.toNat + 5) / 2) := by
    rw [tokenBytes, Nat.add_comm]
    rfl
  have hsent : (ofPuff (hlit :: hdist :: hclen :: body)).sent =
      (Encoding.nibbles (body.take ((hclen.toNat + 5) / 2))).take (hclen.toNat + 4) := rfl
  have hpad : (hclen.toNat + 4) % 2 = 1 →
      ∀ last, (body.take ((hclen.toNat + 5) / 2)).getLast? = some last → last &&& 0x0F = 0 := hg.padding
  rw [puff_eq, hsent, pack_nibbles (by rw [List.length_take]; omega) hpad]
  show _ :: _ :: _ :: (_ ++ ((tokenBytes _).filterMap Token.ofByte?).map Token.toByte) = _
  rw [map_toByte_filterMap hg.tokenByte_le, htokens, List.take_append_drop]
  simp [ofPuff]

theorem opens (hg : Grammatical puff) : (ofPuff puff).Opens where
  hlit_le := hg.hlit_le
  hdist_le := hg.hdist_le
  hclen_le := hg.hclen_le
  length_sent := by
    have := hg.packed_le
    show ((Encoding.nibbles (packed puff)).take ((puff.getD 2 0).toNat + 4)).length =
      (puff.getD 2 0).toNat + 4
    rw [List.length_take, length_nibbles, packed, List.length_take, List.length_drop]
    simp only [packedSize] at *
    omega
  sent_le len hm := hg.nibble_le len (List.mem_of_mem_take hm)
  code_feasible := by
    refine ⟨fun len hm => Nat.le_trans (ofSent_le (n := 7) ?_ len hm) (by decide), hg.code_kraft_le⟩
    exact fun len hm => hg.nibble_le len (List.mem_of_mem_take hm)

theorem expandAll_tokens (hg : Grammatical puff) :
    expandAll [] (ofPuff puff).tokens = some (ofPuff puff).lens := by
  have hsome : expandAll [] (ofPuff puff).tokens ≠ none := by
    rw [ne_eq, expandAll_nil_eq_none_iff]
    rintro ⟨t, hhead, h16⟩
    refine hg.first t.toByte ?_ (Token.symbol_eq_sixteen_iff.mp h16)
    rw [← map_toByte_filterMap hg.tokenByte_le, List.head?_map]
    exact congrArg (Option.map Token.toByte) hhead
  obtain ⟨lens, hlens⟩ := Option.ne_none_iff_exists'.mp hsome
  rw [Header.lens, hlens]
  rfl

theorem valid (hg : Grammatical puff) : (ofPuff puff).Valid := by
  have hne : (ofPuff puff).tokens ≠ [] := fun hnil => by
    have := map_toByte_filterMap hg.tokenByte_le
    rw [show (tokenBytes puff).filterMap Token.ofByte? = [] from hnil] at this
    exact hg.tokenBytes_ne_nil this.symm
  have hle := expandAll_le (by simp) hg.expandAll_tokens
  exact
    { hg.opens with
      coded := hg.coded
      covers := (covers_iff (Valid.total_pos _)).mpr ⟨hne, hg.dropLast_lt, hg.total_le⟩
      expands := hg.expandAll_tokens
      litLen_feasible := ⟨fun len hm => hle len (List.mem_of_mem_take hm), hg.litLen_kraft_le⟩
      distance_feasible := ⟨fun len hm => hle len (List.mem_of_mem_drop hm), hg.distance_kraft_le⟩ }

end Grammatical

/-- The puff form of a valid header is grammatical. -/
theorem Header.Valid.grammatical {h : Header} (hv : h.Valid) : Grammatical h.puff := by
  have hsaid := ofPuff_puff hv.toOpens
  have htokens := tokenBytes_puff hv.toOpens
  have hpacked := packed_puff hv.toOpens
  have hcovers := (covers_iff (Valid.total_pos h)).mp hv.covers
  have hsize := packedSize_puff hv.toOpens
  rw [length_pack] at hsize
  exact
    { three_le := by rw [length_puff]; omega
      hlit_le := by rw [hsaid]; exact hv.hlit_le
      hdist_le := by rw [hsaid]; exact hv.hdist_le
      hclen_le := by rw [hsaid]; exact hv.hclen_le
      packed_le := by rw [length_puff, hsize]; omega
      nibble_le := by
        rw [hpacked]
        exact nibble_pack_le (by decide) hv.sent_le
      padding := by
        rw [hsaid, hpacked, ← hv.length_sent]
        intro hodd last hlast
        obtain ⟨last', hlast', hz⟩ := getLast?_pack hodd
        rw [hlast', Option.some.injEq] at hlast
        rwa [← hlast]
      code_kraft_le := by rw [hsaid]; exact hv.code_feasible.kraft_le
      tokenBytes_ne_nil := by
        rw [htokens, ne_eq, List.map_eq_nil_iff]
        exact hcovers.1
      tokenByte_le := by
        rw [htokens]
        intro byte hm
        obtain ⟨t, -, rfl⟩ := List.mem_map.mp hm
        exact t.toNat_toByte_le
      coded := by rw [hsaid]; exact hv.coded
      first := by
        rw [htokens, List.head?_map]
        intro byte hhead h16
        obtain ⟨t, ht, rfl⟩ := Option.map_eq_some_iff.mp hhead
        have hnone := expandAll_nil_eq_none_iff.mpr ⟨t, ht, Token.symbol_eq_sixteen_iff.mpr h16⟩
        rw [hv.expands] at hnone
        cases hnone
      dropLast_lt := by rw [hsaid]; exact hcovers.2.1
      total_le := by rw [hsaid]; exact hcovers.2.2
      litLen_kraft_le := by rw [hsaid]; exact hv.litLen_feasible.kraft_le
      distance_kraft_le := by rw [hsaid]; exact hv.distance_feasible.kraft_le }

/-- The grammatical buffers are the puff forms of valid headers. -/
theorem grammatical_iff {puff : List UInt8} :
    Grammatical puff ↔ ∃ h : Header, h.Valid ∧ puff = h.puff := by
  constructor
  · exact fun hg => ⟨ofPuff puff, hg.valid, hg.puff_ofPuff.symm⟩
  · rintro ⟨h, hv, rfl⟩
    exact hv.grammatical

namespace Encoding

/-- The encoder accepts exactly the grammatical buffers, into any writer with room for the bits, and
a buffer of `maxHeaderBits` always has room for them. What it writes are the three fields, the
lengths of the code-length alphabet and, for each token, the code of its symbol, the most
significant bit first, and its extra bits. -/
theorem encodeHeader_ok_iff {c : Codec} (hc : c.Reachable) {buffer : List UInt8} {w : BitWriter}
    (hw : BitWriter.Reachable buffer w) (puff : List UInt8) :
    ((∃ s', encodeHeader puff ⟨c, w⟩ = .ok () s') ↔
      Grammatical puff ∧ (ofPuff puff).bits.length ≤ w.room) ∧
    (Grammatical puff → 3 + (ofPuff puff).bits.length ≤ maxHeaderBits) ∧
    ∀ s', encodeHeader puff ⟨c, w⟩ = .ok () s' →
      s'.writer.bits = w.bits ++
        (Bits.ofNat 5 (ofPuff puff).hlit ++ Bits.ofNat 5 (ofPuff puff).hdist ++
          Bits.ofNat 4 (ofPuff puff).hclen ++
          ((ofPuff puff).sent.flatMap fun len => Bits.ofNat 3 len.toNat) ++
          (ofPuff puff).tokens.flatMap fun t =>
            (Bits.ofNat ((ofPuff puff).code.lengthOf t.symbol)
              ((ofPuff puff).code.codeNumber t.symbol)).reverse ++
            Bits.ofNat t.extraWidth t.extra) := by
  refine ⟨⟨?_, ?_⟩, fun hg => hg.valid.length_bits_le, ?_⟩
  · rintro ⟨s', hrun⟩
    obtain ⟨h, rfl, hwrites⟩ := encodeHeader_ok hw.wellFormed hc.sized hrun
    have hroom := hwrites.writer.room_eq
    refine ⟨hwrites.valid.grammatical, ?_⟩
    rw [ofPuff_puff hwrites.valid.toOpens]
    dsimp only at hroom
    omega
  · rintro ⟨hg, hroom⟩
    have hrun := encodeHeader_run (s := ⟨c, w⟩) hw.wellFormed hc.sized hg.valid
    rw [hg.puff_ofPuff] at hrun
    rcases hrun with ⟨-, s', hok, -⟩ | ⟨hlt, -⟩
    · exact ⟨s', hok⟩
    · exact absurd hroom (Nat.not_le.mpr hlt)
  · intro s' hrun
    obtain ⟨h, rfl, hwrites⟩ := encodeHeader_ok hw.wellFormed hc.sized hrun
    rw [ofPuff_puff hwrites.valid.toOpens]
    exact hwrites.writer.bits_eq

/-- The plain header is written into 16 bytes. -/
theorem encodeHeader_plain : ∃ s', encodeHeader plain.puff
    ⟨Codec.new, BitWriter.ofBuffer (List.replicate 16 0)⟩ = .ok () s' := by
  refine (encodeHeader_ok_iff .new .start plain.puff).1.mpr ⟨plain_valid.grammatical, ?_⟩
  rw [ofPuff_puff plain_valid.toOpens, BitWriter.room_ofBuffer, length_bits]
  decide +kernel

end Encoding
end DeflateHeader
