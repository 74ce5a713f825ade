import DeflateHeader.Proofs.PackedLengths
import DeflateHeader.Proofs.TokenRuns
import DeflateHeader.Transcode

/-!
# Dynamic headers

A `Header` has what a dynamic header says: the three fields, the lengths of the code-length alphabet
in the order in which they are sent, and the tokens. `Header.bits` is its stream form and
`Header.puff` its puff form.

`Header.Valid` says when such data make a header. Decoder and encoder go by it: the one succeeds on
the stream forms, the other on the puff forms of valid headers. Every valid header fits the two size
limits (`Header.Valid.length_puff_le`, `Header.Valid.length_bits_le`).
-/

namespace DeflateHeader

/-! ## Fields -/

namespace AlphabetSizes

variable {hlit hdist hclen : Nat}

theorem wideField?_eq_none_iff :
    wideField? [hlit, hdist, hclen] = none ↔ hlit < 32 ∧ hdist < 32 ∧ hclen < 16 := by
  simp only [wideField?, fieldWidths, List.zip_cons_cons, List.zip_nil_right, List.find?_eq_none,
    List.mem_cons, List.not_mem_nil, or_false, forall_eq_or_imp, forall_eq, bne_iff_ne, ne_eq,
    Nat.shiftRight_eq_div_pow, not_not, Nat.div_eq_zero_iff]
  omega

/-- The fields that have sizes. -/
theorem ofFields_ok (hl : hlit ≤ 29) (hd : hdist ≤ 29) (hc : hclen ≤ 15) :
    ofFields hlit hdist hclen = .ok ⟨hlit + 257, hdist + 1, hclen + 4⟩ := by
  have hwide : wideField? [hlit, hdist, hclen] = none :=
    wideField?_eq_none_iff.mpr ⟨by omega, by omega, by omega⟩
  rw [ofFields, hwide]
  exact if_neg (by simp only [maxLitLenCount, maxDistanceCount, codeLengthCount]; omega)

theorem ofFields_error (h : ¬ (hlit ≤ 29 ∧ hdist ≤ 29 ∧ hclen ≤ 15)) :
    ∃ detail, ofFields hlit hdist hclen = .error (.invalid detail) := by
  rw [ofFields]
  cases hw : wideField? [hlit, hdist, hclen] with
  | some wide => exact ⟨_, rfl⟩
  | none =>
    have hlt := wideField?_eq_none_iff.mp hw
    exact ⟨_, if_pos (by simp only [maxLitLenCount, maxDistanceCount, codeLengthCount]; omega)⟩

theorem lt_of_mem_sentSymbols (sizes : AlphabetSizes) :
    ∀ symbol ∈ sizes.sentSymbols, symbol < codeLengthCount :=
  fun _ hmem => lt_of_mem_codeLengthOrder (List.mem_of_mem_take hmem)

theorem length_sentSymbols {sizes : AlphabetSizes} (h : sizes.codeLength ≤ codeLengthCount) :
    sizes.sentSymbols.length = sizes.codeLength := by
  rw [sentSymbols, List.length_take, length_codeLengthOrder]
  exact Nat.min_eq_left h

end AlphabetSizes

/-! ## Headers -/

/-- What a dynamic header says. -/
@[ext]
structure Header where
  hlit : Nat
  hdist : Nat
  hclen : Nat
  /-- The lengths of the code-length alphabet, in the order `codeLengthOrder`. -/
  sent : List UInt8
  tokens : List Token
  deriving DecidableEq, Repr

namespace Header

/-- The code of the code-length alphabet. -/
def code (h : Header) : Lengths := .ofSent h.sent

/-- The sizes of the three alphabets. -/
def sizes (h : Header) : AlphabetSizes := ⟨h.hlit + 257, h.hdist + 1, h.hclen + 4⟩

/-- The lengths that the tokens stand for. -/
def lens (h : Header) : Lengths := (expandAll [] h.tokens).getD []

/-- The lengths of the literal/length alphabet. -/
def litLen (h : Header) : Lengths := h.lens.take h.sizes.litLen

/-- The lengths of the distance alphabet. -/
def distance (h : Header) : Lengths := h.lens.drop h.sizes.litLen

/-- The stream form of the fields. -/
def fieldBits (hlit hdist hclen : Nat) : List Bool :=
  Bits.ofNat 5 hlit ++ Bits.ofNat 5 hdist ++ Bits.ofNat 4 hclen

/-- The stream form of the lengths of the code-length alphabet. -/
def lengthBits (sent : List UInt8) : List Bool := sent.flatMap fun len => Bits.ofNat 3 len.toNat

/-- The puff form of the fields. -/
def fieldBytes (hlit hdist hclen : Nat) : List UInt8 :=
  [UInt8.ofNat hlit, UInt8.ofNat hdist, UInt8.ofNat hclen]

/-- The stream form of what comes before the tokens. -/
def openingBits (h : Header) : List Bool := fieldBits h.hlit h.hdist h.hclen ++ lengthBits h.sent

/-- The stream form of what comes before the tokens, field by field. -/
def openingFields (h : Header) : List (List Bool) :=
  Bits.ofNat 5 h.hlit :: Bits.ofNat 5 h.hdist :: Bits.ofNat 4 h.hclen ::
    h.sent.map fun len => Bits.ofNat 3 len.toNat

/-- The puff form of what comes before the tokens. -/
def openingPuff (h : Header) : List UInt8 := fieldBytes h.hlit h.hdist h.hclen ++ pack h.sent

/-- The stream form of a header. -/
def bits (h : Header) : List Bool := h.openingBits ++ tokenBits h.code h.tokens

/-- The puff form of a header. -/
def puff (h : Header) : List UInt8 := h.openingPuff ++ h.tokens.map Token.toByte

/-- What comes before the tokens is right: the fields are in range, the lengths are as many as the
fields say, and they make a feasible code. -/
structure Opens (h : Header) : Prop where
  hlit_le : h.hlit ≤ 29
  hdist_le : h.hdist ≤ 29
  hclen_le : h.hclen ≤ 15
  length_sent : h.sent.length = h.hclen + 4
  sent_le : ∀ len ∈ h.sent, len.toNat ≤ 7
  code_feasible : h.code.Feasible

/-- A header that opens right, in which every token has a code, the last token completes the two
main alphabets, and their codes are feasible. -/
structure Valid (h : Header) : Prop extends h.Opens where
  coded : ∀ t ∈ h.tokens, 0 < h.code.lengthOf t.symbol
  covers : Covers h.sizes.total h.tokens
  expands : expandAll [] h.tokens = some h.lens
  litLen_feasible : h.litLen.Feasible
  distance_feasible : h.distance.Feasible

/-- The header of a block without any data: only the end of the block has a literal/length code, and
one distance has a code. -/
def plain : Header where
  hlit := 0
  hdist := 0
  hclen := 14
  sent := List.replicate 2 0 ++ 1 :: List.replicate 14 0 ++ [1]
  tokens := [.repeatZeroLong ⟨127, by decide⟩, .repeatZeroLong ⟨107, by decide⟩,
    .length ⟨1, by decide⟩, .length ⟨1, by decide⟩]

theorem plain_valid : plain.Valid where
  hlit_le := by decide
  hdist_le := by decide
  hclen_le := by decide
  length_sent := by decide
  sent_le := by decide +kernel
  code_feasible := by decide +kernel
  coded := by decide +kernel
  covers := (covers_iff (by decide)).mpr (by decide)
  expands := rfl
  litLen_feasible := by decide +kernel
  distance_feasible := by decide +kernel

theorem puff_eq (h : Header) :
    h.puff = UInt8.ofNat h.hlit :: UInt8.ofNat h.hdist :: UInt8.ofNat h.hclen ::
      (pack h.sent ++ h.tokens.map Token.toByte) :=
  List.append_assoc ..

variable {h : Header}

/-! ## Sizes -/

@[simp] theorem length_fieldBits (hlit hdist hclen : Nat) :
    (fieldBits hlit hdist hclen).length = 14 := by
  simp [fieldBits]

@[simp] theorem lengthBits_nil : lengthBits [] = [] := rfl

@[simp] theorem lengthBits_cons (len : UInt8) (sent : List UInt8) :
    lengthBits (len :: sent) = Bits.ofNat 3 len.toNat ++ lengthBits sent := rfl

@[simp] theorem length_lengthBits (sent : List UInt8) :
    (lengthBits sent).length = 3 * sent.length := by
  induction sent with
  | nil => rfl
  | cons len sent ih =>
    rw [lengthBits_cons, List.length_append, ih, Bits.length_ofNat, List.length_cons]
    omega

@[simp] theorem length_fieldBytes (hlit hdist hclen : Nat) :
    (fieldBytes hlit hdist hclen).length = 3 := rfl

theorem length_openingBits (h : Header) : h.openingBits.length = 14 + 3 * h.sent.length := by
  rw [openingBits, List.length_append, length_fieldBits, length_lengthBits]

theorem flatten_openingFields (h : Header) : h.openingFields.flatten = h.openingBits := by
  simp [openingFields, openingBits, fieldBits, lengthBits, List.flatMap]

theorem length_openingPuff (h : Header) : h.openingPuff.length = 3 + (h.sent.length + 1) / 2 := by
  rw [openingPuff, List.length_append, length_fieldBytes, length_pack]

theorem length_bits (h : Header) :
    h.bits.length = 14 + 3 * h.sent.length + (tokenBits h.code h.tokens).length := by
  rw [bits, List.length_append, length_openingBits]

theorem length_puff (h : Header) :
    h.puff.length = 3 + (h.sent.length + 1) / 2 + h.tokens.length := by
  unfold puff
  rw [List.length_append, length_openingPuff, List.length_map]

theorem length_tokenBits_le {code : Lengths} {n : Nat} (hc : ∀ s, code.lengthOf s ≤ n)
    (ts : List Token) : (tokenBits code ts).length ≤ (n + 7) * ts.length := by
  induction ts with
  | nil => exact Nat.zero_le _
  | cons t ts ih =>
    have := hc t.symbol
    have := t.extraWidth_le
    rw [tokenBits_cons, List.length_append, Token.length_bits, List.length_cons, Nat.mul_succ]
    omega

namespace Opens

theorem length_sent_le (ho : h.Opens) : h.sent.length ≤ codeLengthCount := by
  have := ho.hclen_le
  rw [ho.length_sent, codeLengthCount]
  omega

theorem total_le (ho : h.Opens) : h.sizes.total ≤ maxLitLenCount + maxDistanceCount := by
  have := ho.hlit_le
  have := ho.hdist_le
  simp only [sizes, AlphabetSizes.total, maxLitLenCount, maxDistanceCount]
  omega

theorem code_le (ho : h.Opens) : ∀ len ∈ h.code, len.toNat ≤ maxCodeLengthBits :=
  ofSent_le ho.sent_le

theorem maxLength_le (ho : h.Opens) : h.code.maxLength ≤ maxCodeLengthBits :=
  Lengths.maxLength_le ho.code_le

theorem ofFields_eq (ho : h.Opens) : AlphabetSizes.ofFields h.hlit h.hdist h.hclen = .ok h.sizes :=
  AlphabetSizes.ofFields_ok ho.hlit_le ho.hdist_le ho.hclen_le

theorem packedSize_eq (ho : h.Opens) : h.sizes.packedSize = (pack h.sent).length := by
  rw [length_pack, ho.length_sent]
  rfl

theorem sentSymbols_eq (ho : h.Opens) : h.sizes.sentSymbols = codeLengthOrder.take h.sent.length := by
  rw [ho.length_sent]
  rfl

theorem length_sentSymbols (ho : h.Opens) : h.sizes.sentSymbols.length = h.sent.length := by
  rw [ho.sentSymbols_eq, List.length_take, length_codeLengthOrder]
  exact Nat.min_eq_left ho.length_sent_le

/-- Setting the lengths that are sent gives the code. -/
theorem setLengths_eq (ho : h.Opens) :
    setLengths (List.replicate codeLengthCount 0) (h.sizes.sentSymbols.zip h.sent) = h.code := by
  rw [ho.sentSymbols_eq]
  exact setLengths_sent ho.length_sent_le

/-- The bytes of the fields give back the fields. -/
theorem toNat_fieldBytes (ho : h.Opens) : (UInt8.ofNat h.hlit).toNat = h.hlit ∧
    (UInt8.ofNat h.hdist).toNat = h.hdist ∧ (UInt8.ofNat h.hclen).toNat = h.hclen := by
  have := ho.hlit_le; have := ho.hdist_le; have := ho.hclen_le
  simp only [UInt8.toNat_ofNat']
  omega

/-- The packed lengths give back those that were sent. -/
theorem nibbles_pack_sent (ho : h.Opens) :
    (Encoding.nibbles (pack h.sent)).take (h.hclen + 4) = h.sent := by
  rw [← ho.length_sent]
  exact nibbles_pack fun v hm => Nat.lt_of_le_of_lt (ho.sent_le v hm) (by decide)

end Opens

namespace Valid

theorem total_pos (h : Header) : 0 < h.sizes.total := by
  simp only [sizes, AlphabetSizes.total]
  omega

theorem tokens_ne_nil (hv : h.Valid) : h.tokens ≠ [] := ((covers_iff (total_pos h)).mp hv.covers).1

theorem length_tokens_le (hv : h.Valid) : h.tokens.length ≤ maxLitLenCount + maxDistanceCount :=
  Nat.le_trans hv.covers.totalCount_bounds.2.2 hv.total_le

theorem length_lens (hv : h.Valid) : h.lens.length = totalCount h.tokens := by
  have := length_expandAll hv.expands
  rwa [List.length_nil, Nat.zero_add] at this

theorem total_le_length_lens (hv : h.Valid) : h.sizes.total ≤ h.lens.length :=
  hv.length_lens ▸ hv.covers.totalCount_bounds.1

theorem length_lens_lt (hv : h.Valid) : h.lens.length < h.sizes.total + 138 :=
  hv.length_lens ▸ hv.covers.totalCount_bounds.2.1

/-- The puff form of a header fits the buffer that `Codec.puff` gives it. -/
theorem length_puff_le (hv : h.Valid) : h.puff.length ≤ maxPuffSize := by
  have := hv.length_sent_le
  have := hv.length_tokens_le
  rw [length_puff, maxPuffSize]
  omega

/-- The stream form of a header fits the buffer that `Codec.huff` gives it, after the three bits of
the block header. -/
theorem length_bits_le (hv : h.Valid) : 3 + h.bits.length ≤ maxHeaderBits := by
  have hsent := hv.length_sent_le
  have htokens := hv.length_tokens_le
  have hbits := length_tokenBits_le
    (fun s => Nat.le_trans (Lengths.lengthOf_le_maxLength _ s) hv.maxLength_le) h.tokens
  rw [length_bits, maxHeaderBits]
  simp only [maxCodeLengthBits, codeLengthCount, maxLitLenCount, maxDistanceCount] at *
  omega

end Valid

/-- A code of the two main alphabets fits their tables. -/
theorem Valid.length_lens_le (hv : h.Valid) : h.lens.length ≤ slotSymbols := by
  have := hv.length_lens_lt
  have := hv.total_le
  simp only [maxLitLenCount, maxDistanceCount, slotSymbols] at *
  omega

section Tokens

variable {ts : List Token} {lens : Lengths}

theorem litLen_le_of_covers (hcov : Covers h.sizes.total ts) (hexp : expandAll [] ts = some lens) :
    h.sizes.litLen ≤ lens.length := by
  have hlen := length_expandAll hexp
  rw [List.length_nil, Nat.zero_add] at hlen
  rw [hlen]
  exact Nat.le_trans (Nat.le_add_right _ _) hcov.totalCount_bounds.1

/-- What an opening lacks to a valid header. -/
theorem Opens.valid (ho : h.Opens) (hcoded : ∀ t ∈ ts, 0 < h.code.lengthOf t.symbol)
    (hcov : Covers h.sizes.total ts) (hexp : expandAll [] ts = some lens)
    (hl : Lengths.Feasible (lens.take h.sizes.litLen))
    (hd : Lengths.Feasible (lens.drop h.sizes.litLen)) :
    ({ h with tokens := ts } : Header).Valid := by
  have hlens : ({ h with tokens := ts } : Header).lens = lens := by
    rw [Header.lens, hexp]
    rfl
  exact
    { hlit_le := ho.hlit_le
      hdist_le := ho.hdist_le
      hclen_le := ho.hclen_le
      length_sent := ho.length_sent
      sent_le := ho.sent_le
      code_feasible := ho.code_feasible
      coded := hcoded
      covers := hcov
      expands := by rw [hlens]; exact hexp
      litLen_feasible := by rw [litLen, hlens]; exact hl
      distance_feasible := by rw [distance, hlens]; exact hd }

end Tokens

/-! ## Two headers in one form -/

theorem fieldBits_inj {hlit hdist hclen hlit' hdist' hclen' : Nat} {as bs : List Bool}
    (hl : hlit < 32) (hd : hdist < 32) (hc : hclen < 16) (hl' : hlit' < 32) (hd' : hdist' < 32)
    (hc' : hclen' < 16)
    (h : fieldBits hlit hdist hclen ++ as = fieldBits hlit' hdist' hclen' ++ bs) :
    hlit = hlit' ∧ hdist = hdist' ∧ hclen = hclen' ∧ as = bs := by
  obtain ⟨hf, hrest⟩ := List.append_inj h (by simp)
  obtain ⟨hf, h4⟩ := List.append_inj hf (by simp)
  obtain ⟨h5, h5'⟩ := List.append_inj hf (by simp)
  rw [Bits.ofNat_inj] at h4 h5 h5'
  refine ⟨?_, ?_, ?_, hrest⟩ <;> omega

theorem lengthBits_inj {sent sent' : List UInt8} {as bs : List Bool}
    (hlen : sent.length = sent'.length) (hs : ∀ len ∈ sent, len.toNat ≤ 7)
    (hs' : ∀ len ∈ sent', len.toNat ≤ 7) (h : lengthBits sent ++ as = lengthBits sent' ++ bs) :
    sent = sent' ∧ as = bs := by
  induction sent generalizing sent' with
  | nil =>
    obtain rfl : sent' = [] := List.length_eq_zero_iff.mp hlen.symm
    exact ⟨rfl, h⟩
  | cons len sent ih =>
    cases sent' with
    | nil => simp at hlen
    | cons len' sent' =>
      rw [lengthBits_cons, lengthBits_cons, List.append_assoc, List.append_assoc] at h
      obtain ⟨h3, hrest⟩ := List.append_inj h (by simp)
      have hle := hs len (by simp)
      have hle' := hs' len' (by simp)
      have hl : len = len' := by
        apply UInt8.toNat_inj.mp
        rw [Bits.ofNat_inj] at h3
        omega
      obtain ⟨rfl, hab⟩ := ih (by simpa using hlen) (fun v hv => hs v (by simp [hv]))
        (fun v hv => hs' v (by simp [hv])) hrest
      exact ⟨by rw [hl], hab⟩

end Header

/-- The codec holds the lengths that a header describes. -/
structure Codec.Holds (h : Header) (c : Codec) : Prop where
  codeLength : c.codeLength.lens = h.code
  litLen : c.litLen.lens = h.litLen
  distance : c.distance.lens = h.distance

end DeflateHeader
