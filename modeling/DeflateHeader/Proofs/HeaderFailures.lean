import DeflateHeader.Proofs.HeaderReading
import DeflateHeader.Proofs.HeaderWriting
import DeflateHeader.Proofs.TokenLengths

/-!
# How a header fails

`DecodeFailure` and `EncodeFailure` list the errors in which decoding and encoding a header can end.
An internal fault is not among them, nor is a code length that is too long for its table, nor a
symbol beyond the code-length alphabet.

Both lists have a parameter for the lack of room. `failsOnly_decodeHeader` and
`failsOnly_encodeHeader` show that room lacks only in a sink of less than `maxPuffSize` bytes, and in
a writer with less than `maxHeaderBits` bits of which three are the block header. Both bounds come
from the tokens: whatever the input is, a token is only reached while a length is missing, so no more
tokens are tried than lengths are wanted.
-/

namespace DeflateHeader

/-- The errors of decoding a header, with the lack of room only if `short`. -/
inductive DecodeFailure (short : Prop) : Error → Prop
  | input : DecodeFailure short .insufficientInput
  | output (h : short) : DecodeFailure short .insufficientOutput
  | alphabetSize (litLen distance codes : Nat) :
      DecodeFailure short (.invalid (.alphabetSize litLen distance codes))
  | oversubscribed (length count : Nat) :
      DecodeFailure short (.invalid (.oversubscribed length count))
  | unknownCode : DecodeFailure short (.invalid .unknownCode)
  | repeatWithoutPrevious : DecodeFailure short (.invalid .repeatWithoutPrevious)

/-- The errors of encoding a header, with the lack of room only if `short`. -/
inductive EncodeFailure (short : Prop) : Error → Prop
  | input : EncodeFailure short .insufficientInput
  | output (h : short) : EncodeFailure short .insufficientOutput
  | headerField (value width : Nat) : EncodeFailure short (.invalid (.headerField value width))
  | alphabetSize (litLen distance codes : Nat) :
      EncodeFailure short (.invalid (.alphabetSize litLen distance codes))
  | paddingNibble (nibble : Nat) : EncodeFailure short (.invalid (.paddingNibble nibble))
  | oversubscribed (length count : Nat) :
      EncodeFailure short (.invalid (.oversubscribed length count))
  | invalidToken (byte : Nat) : EncodeFailure short (.invalid (.invalidToken byte))
  | unusedSymbol (symbol : Nat) : EncodeFailure short (.invalid (.unusedSymbol symbol))
  | repeatWithoutPrevious : EncodeFailure short (.invalid .repeatWithoutPrevious)
  | trailingBytes (consumed length : Nat) :
      EncodeFailure short (.invalid (.trailingBytes consumed length))

theorem DecodeFailure.mono {p q : Prop} (h : p → q) {e : Error} (he : DecodeFailure p e) :
    DecodeFailure q e := by
  cases he with
  | output hp => exact .output (h hp)
  | _ => constructor

theorem EncodeFailure.mono {p q : Prop} (h : p → q) {e : Error} (he : EncodeFailure p e) :
    EncodeFailure q e := by
  cases he with
  | output hp => exact .output (h hp)
  | _ => constructor

/-! ## Fields -/

namespace AlphabetSizes

variable {hlit hdist hclen : Nat} {e : Error}

/-- Fields of the right width only have sizes that are too large. -/
theorem alphabetSize_of_ofFields (hl : hlit < 32) (hd : hdist < 32) (hc : hclen < 16)
    (h : ofFields hlit hdist hclen = .error e) :
    ∃ litLen distance codes, e = .invalid (.alphabetSize litLen distance codes) := by
  rw [ofFields, wideField?_eq_none_iff.mpr ⟨hl, hd, hc⟩] at h
  dsimp only at h
  split at h
  · cases h
    exact ⟨_, _, _, rfl⟩
  · cases h

theorem headerField_of_ofFields (hw : ¬ (hlit < 32 ∧ hdist < 32 ∧ hclen < 16))
    (h : ofFields hlit hdist hclen = .error e) :
    ∃ value width, e = .invalid (.headerField value width) := by
  obtain ⟨wide, hwide⟩ := Option.ne_none_iff_exists'.mp (mt wideField?_eq_none_iff.mp hw)
  rw [ofFields, hwide] at h
  cases h
  exact ⟨_, _, rfl⟩

/-- Fields that have no sizes are too wide or too large. -/
theorem failure_of_ofFields {E : Error → Prop}
    (hfield : ∀ value width, E (.invalid (.headerField value width)))
    (hsize : ∀ litLen distance codes, E (.invalid (.alphabetSize litLen distance codes)))
    (h : ofFields hlit hdist hclen = .error e) : E e := by
  by_cases hwide : hlit < 32 ∧ hdist < 32 ∧ hclen < 16
  · obtain ⟨litLen, distance, codes, rfl⟩ := alphabetSize_of_ofFields hwide.1 hwide.2.1 hwide.2.2 h
    exact hsize ..
  · obtain ⟨value, width, rfl⟩ := headerField_of_ofFields hwide h
    exact hfield ..

end AlphabetSizes

/-! ## Builds -/

section Builds

variable {E : Error → Prop} (hE : ∀ length count, E (.invalid (.oversubscribed length count)))

include hE

/-- Lengths that have room in a table if they are feasible fail only for not being so. -/
theorem LookupTable.failsOnly_build {lens : Lengths} {t : LookupTable} (book : CodeBook)
    (hm : ∀ len ∈ lens, len.toNat ≤ maxCodeBits) (hn : lens.length ≤ slotSymbols)
    (hc : lens.Feasible → 2 ^ lens.maxLength ≤ t.capacity) :
    FailsOnly E (LookupTable.build lens) (t, book) := by
  by_cases hf : lens.Feasible
  · obtain ⟨t', book', hb, -⟩ := LookupTable.build_ok book hf hn (hc hf)
    exact failsOnly_ok hb
  · obtain ⟨l, hassign⟩ := CodeBook.assign_oversubscribed hm hf book
    exact failsOnly_bind (failsOnly_error (focus_snd_error hassign) (hE _ _)) fun n s' hok => by
      rw [focus_snd_error hassign] at hok
      cases hok

theorem CodeTable.failsOnly_build {lens : Lengths} (t : CodeTable) (book : CodeBook)
    (hm : ∀ len ∈ lens, len.toNat ≤ maxCodeBits) (hn : lens.length ≤ symbolRange) :
    FailsOnly E (CodeTable.build lens) (t, book) := by
  by_cases hf : lens.Feasible
  · obtain ⟨t', hb, -⟩ := CodeTable.build_ok t book hf hn
    exact failsOnly_ok hb
  · obtain ⟨l, hassign⟩ := CodeBook.assign_oversubscribed hm hf book
    exact failsOnly_bind (failsOnly_error (focus_snd_error hassign) (hE _ _)) fun n s' hok => by
      rw [focus_snd_error hassign] at hok
      cases hok

variable {view : Codec → Alphabet} {put : Alphabet → Codec → Codec} {c : Codec}

omit hE in
theorem Codec.failsOnly_building {α : Type} {act : EStateM Error (Alphabet × CodeBook) α}
    (hview : ∀ notes, view { c with notes } = view c) (h : FailsOnly E act (view c, c.book)) :
    FailsOnly E (building view put act) c := by
  obtain ⟨notes, hr⟩ := remarkLengths_ok (view c).lens c
  refine failsOnly_bind_ok run_get (failsOnly_bind_ok hr (failsOnly_focus ?_))
  dsimp only
  rwa [hview notes]

theorem Codec.failsOnly_building_buildLookup (hview : ∀ notes, view { c with notes } = view c)
    (hm : ∀ len ∈ (view c).lens, len.toNat ≤ maxCodeBits) (hn : (view c).lens.length ≤ slotSymbols)
    (hc : (view c).lens.Feasible → 2 ^ (view c).lens.maxLength ≤ (view c).lookup.capacity) :
    FailsOnly E (building view put Alphabet.buildLookup) c :=
  failsOnly_building hview (failsOnly_bind_ok run_get
    (failsOnly_focus (LookupTable.failsOnly_build hE c.book hm hn hc)))

theorem Codec.failsOnly_building_buildCodes (hview : ∀ notes, view { c with notes } = view c)
    (hm : ∀ len ∈ (view c).lens, len.toNat ≤ maxCodeBits) (hn : (view c).lens.length ≤ symbolRange) :
    FailsOnly E (building view put Alphabet.buildCodes) c :=
  failsOnly_building hview (failsOnly_bind_ok run_get
    (failsOnly_focus (CodeTable.failsOnly_build hE (view c).codes c.book hm hn)))

end Builds

/-! ## Decoding -/

/-- Tokens stand for lengths that a main alphabet can have. -/
theorem expandAll_nil_le {ts : List Token} {lens : Lengths} (h : expandAll [] ts = some lens) :
    ∀ len ∈ lens, len.toNat ≤ maxCodeBits :=
  expandAll_le (by simp) h

namespace LengthReading

variable {table : LookupTable} {code : Lengths} {s : LengthReading}

/-- By induction on the missing lengths: each token takes one byte of room and at least one of the
missing lengths. A code of 19 lengths has no symbol above 18. -/
theorem failsOnly_readTokens (hd : table.Decodes code) (hf : code.Feasible)
    (hcode : code.length = codeLengthCount) {missing : Nat} (hs : s.reader.WellFormed) :
    FailsOnly (DecodeFailure (s.sink.room < missing)) (readTokens table code missing) s := by
  induction missing using Nat.strongRecOn generalizing s with
  | ind missing ih =>
    cases missing with
    | zero =>
      rw [readTokens]
      exact failsOnly_pure
    | succ missing =>
      have hrun := readToken_run hd hf hs
      rw [readTokens_succ]
      refine failsOnly_bind ?_ fun t s₁ hstep => ?_
      · intro e s₁ hstep
        rw [hstep] at hrun
        cases hrun with
        | noLookahead => exact .input
        | unknownCode => exact .unknownCode
        | noRoom _ h => exact .output (by omega)
        | invalidSymbol hcoded _ h =>
          have := Lengths.lt_length_of_pos hcoded
          simp only [codeLengthCount] at hcode
          omega
        | noPrevious => exact .repeatWithoutPrevious
        | noExtra => exact .input
      · rw [hstep] at hrun
        cases hrun with
        | token _ _ _ _ hr hk =>
          have hpos := t.count_pos
          have hroom := hk.room_eq
          have hle := hk.le_room
          simp only [List.length_singleton] at hroom hle
          refine failsOnly_bind ((ih (missing + 1 - t.count) (by omega) hr.wellFormed).mono
            fun e he => he.mono fun hshort => ?_) fun _ _ _ => failsOnly_pure
          dsimp only at hshort
          omega

end LengthReading

namespace Decoding

variable {s : Decoding} {E : Error → Prop} {short : Prop}

theorem failsOnly_needRoom {n : Nat} (hE : s.sink.room < n → E .insufficientOutput) :
    FailsOnly E (needRoom n) s := by
  by_cases h : s.sink.room < n
  · have herr : needRoom n s = .error .insufficientOutput s := by simp [needRoom, run_bind, h]
    exact failsOnly_error herr (hE h)
  · exact failsOnly_ok (needRoom_ok (Nat.le_of_not_lt h))

theorem failsOnly_readSizes (hs : s.reader.WellFormed) (hroom : 3 ≤ s.sink.room) :
    FailsOnly (DecodeFailure short) readSizes s := by
  by_cases h : 14 ≤ s.reader.remaining
  · obtain ⟨hlit, hdist, hclen, r, k, hl, hd, hc, -, -, -, hrun⟩ := readSizes_run hs h hroom
    cases hf : AlphabetSizes.ofFields hlit hdist hclen with
    | ok sizes =>
      rw [hf] at hrun
      exact failsOnly_ok hrun
    | error e =>
      rw [hf] at hrun
      obtain ⟨litLen, distance, codes, rfl⟩ := AlphabetSizes.alphabetSize_of_ofFields hl hd hc hf
      exact failsOnly_error hrun (.alphabetSize ..)
  · exact failsOnly_error (readSizes_error (Nat.lt_of_not_le h)) .input

/-- By induction on the symbols. A low half byte always comes after a high one. -/
theorem failsOnly_readCodeLengths (hE : E .insufficientInput) {low : Bool} {symbols : List Nat}
    (hs : s.reader.WellFormed)
    (hsym : ∀ symbol ∈ symbols, symbol < s.codec.codeLength.lens.length)
    (hlow : low = true → ∃ b k, ByteSink.Gets [b] k s.sink)
    (hroom : (symbols.length + (!low).toNat) / 2 ≤ s.sink.room) :
    FailsOnly E (readCodeLengths low symbols) s := by
  induction symbols generalizing low s with
  | nil => exact failsOnly_pure
  | cons symbol symbols ih =>
    by_cases h : 3 ≤ s.reader.remaining
    · obtain ⟨len, r, -, hm, -, hstep⟩ := readCodeLengths_cons low symbols hs h (hsym symbol (by simp))
      rw [List.length_cons] at hroom
      have hsym' : ∀ symbol' ∈ symbols, symbol' <
          (s.codec.withCode (s.codec.codeLength.lens.set symbol len)).codeLength.lens.length := by
        intro symbol' hmem
        simpa [Codec.withCode] using hsym symbol' (by simp [hmem])
      cases low with
      | false =>
        simp only [Bool.not_false, Bool.toNat_true] at hroom
        obtain ⟨k, hp, hg⟩ := ByteSink.push_ok (len <<< 4) (by omega : 0 < s.sink.room)
        have hroom' := hg.room_eq
        rw [List.length_singleton] at hroom'
        rw [FailsOnly, hstep k hp]
        exact ih (s := ⟨_, r, k⟩) hm.wellFormed hsym' (fun _ => ⟨_, _, hg⟩)
          (by simp only [Bool.not_not, Bool.toNat_false]; omega)
      | true =>
        simp only [Bool.not_true, Bool.toNat_false] at hroom
        obtain ⟨b, k₀, hg₀⟩ := hlow rfl
        obtain ⟨k, ho, hg⟩ := ByteSink.orLast_ok len hg₀
        have hroom' := hg.room_eq
        have hroom₀ := hg₀.room_eq
        rw [List.length_singleton] at hroom' hroom₀
        rw [FailsOnly, hstep k ho]
        exact ih (s := ⟨_, r, k⟩) hm.wellFormed hsym' (by simp)
          (by simp only [Bool.not_true, Bool.not_false, Bool.toNat_true]; omega)
    · have herr := onReader_error (BitReader.take_error (by decide) (Nat.lt_of_not_le h))
      rw [readCodeLengths]
      exact failsOnly_error (run_bind_error herr) hE

theorem failsOnly_readCode {sizes : AlphabetSizes} (hc : s.codec.Ready)
    (hsizes : sizes.codeLength ≤ codeLengthCount) (hs : s.reader.WellFormed)
    (hroom : sizes.packedSize ≤ s.sink.room) : FailsOnly (DecodeFailure short) (readCode sizes) s := by
  have hlen := AlphabetSizes.length_sentSymbols hsizes
  have hsym : ∀ symbol ∈ sizes.sentSymbols,
      symbol < (s.codec.withCode (.replicate codeLengthCount 0)).codeLength.lens.length := by
    simpa [Codec.withCode] using sizes.lt_of_mem_sentSymbols
  have hpacked : (sizes.sentSymbols.length + 1) / 2 ≤ s.sink.room := by rw [hlen]; exact hroom
  refine failsOnly_bind_ok (onCodec_ok (Codec.clearCodeLengths_ok hc.length_codeLength)) ?_
  refine failsOnly_bind ?_ fun _ s₁ h₁ => ?_
  · exact failsOnly_readCodeLengths .input hs hsym (by simp) hpacked
  · obtain ⟨sent, r, k, hsent, hle, rfl, -⟩ := readCodeLengths_inv
      (s := { s with codec := s.codec.withCode (.replicate codeLengthCount 0) }) hs hsym hpacked h₁
    have hseven : ∀ len ∈ setLengths (.replicate codeLengthCount 0) (sizes.sentSymbols.zip sent),
        len.toNat ≤ maxCodeLengthBits :=
      setLengths_le (by simp) fun pair hp => hle pair.2 (List.of_mem_zip hp).2
    refine failsOnly_discard (failsOnly_focus ?_)
    refine Codec.failsOnly_building_buildLookup .oversubscribed (fun _ => rfl) ?_ ?_ fun _ => ?_
    · exact fun len hmem => Nat.le_trans (hseven len hmem) (by decide)
    · simp [Codec.withCode, codeLengthCount, slotSymbols]
    · exact hc.codeLength.capacity ▸ Nat.pow_le_pow_right (by decide) (Lengths.maxLength_le hseven)

/-- Room for the opening lacks only in a sink of less than 13 bytes. -/
theorem failsOnly_readOpening (hs : s.reader.WellFormed) (hc : s.codec.Sized) :
    FailsOnly (DecodeFailure (s.sink.room < 13)) readOpening s := by
  obtain ⟨c₀, hbegin, hready, -⟩ := Codec.begin_ok hc
  rw [readOpening_eq]
  refine failsOnly_bind_ok (onCodec_ok hbegin) ?_
  refine failsOnly_bind (failsOnly_needRoom fun h => .output (by dsimp only at h; omega)) ?_
  intro _ s₁ h₁
  obtain ⟨hroom, rfl⟩ := room_of_needRoom h₁
  refine failsOnly_bind (failsOnly_readSizes hs hroom) fun sizes s₂ h₂ => ?_
  obtain ⟨hlit, hdist, hclen, r, k, -, -, hcl, rfl, rfl, hm, -, hg⟩ :=
    readSizes_inv (s := { s with codec := c₀ }) hs hroom h₂
  have hk := hg.room_eq
  rw [Header.length_fieldBytes] at hk
  refine failsOnly_bind_ok (onCodec_ok (Codec.remark_ok _ c₀)) ?_
  refine failsOnly_bind (failsOnly_needRoom fun h => .output ?_) fun _ s₃ h₃ => ?_
  · simp only [AlphabetSizes.packedSize] at h
    dsimp only at hroom hk
    omega
  · obtain ⟨hroom', rfl⟩ := room_of_needRoom h₃
    refine failsOnly_bind (failsOnly_readCode (hready.with_notes _) ?_ hm.wellFormed hroom')
      fun _ _ _ => failsOnly_pure
    simp only [codeLengthCount]
    omega

/-- Lengths of at most 15 bits fail only for not being feasible. -/
theorem failsOnly_loadTables {sizes : AlphabetSizes} {lens : Lengths} {c : Codec} (tokens : Nat)
    (r : BitReader) (k : ByteSink) (hc : c.Ready) (hm : ∀ len ∈ lens, len.toNat ≤ maxCodeBits)
    (hlen : lens.length ≤ slotSymbols) (hn : sizes.litLen ≤ lens.length) :
    FailsOnly (DecodeFailure short) (loadTables sizes tokens) ⟨c.withLitLen lens, r, k⟩ := by
  refine failsOnly_bind_ok (onCodec_ok (s := ⟨c.withLitLen lens, r, k⟩) (Codec.splitLengths_ok hn)) ?_
  refine failsOnly_bind (failsOnly_focus (Codec.failsOnly_building_buildLookup .oversubscribed
    (fun _ => rfl) (fun len hmem => hm len (List.mem_of_mem_take hmem)) ?_ fun hf => ?_)) ?_
  · exact Nat.le_trans (List.length_take_le' _ _) hlen
  · exact hc.litLen.capacity ▸ Codec.two_pow_maxLength_le hf
  · intro n s₁ h₁
    obtain ⟨c₁, hbuild, rfl⟩ := ok_of_focus h₁
    obtain ⟨t, notes, -, rfl⟩ := Codec.ok_of_building (fun _ => rfl) hbuild
    refine failsOnly_bind (failsOnly_focus (Codec.failsOnly_building_buildLookup .oversubscribed
      (fun _ => rfl) (fun len hmem => hm len (List.mem_of_mem_drop hmem)) ?_ fun hf => ?_)) ?_
    · exact Nat.le_trans (List.drop_sublist _ _).length_le hlen
    · exact hc.distance.capacity ▸ Codec.two_pow_maxLength_le hf
    · exact fun m s₂ h₂ => failsOnly_ok rfl

/-- Decoding a header ends in one of the listed errors, if it fails. A sink of `maxPuffSize` bytes is
never too small, whatever the bits are. -/
theorem failsOnly_decodeHeader (hs : s.reader.WellFormed) (hc : s.codec.Sized) :
    FailsOnly (DecodeFailure (s.sink.room < maxPuffSize)) decodeHeader s := by
  rw [decodeHeader_eq]
  refine failsOnly_bind ((failsOnly_readOpening hs hc).mono fun e he => he.mono fun h => ?_) ?_
  · exact Nat.lt_of_lt_of_le h (by decide)
  intro sizes s₁ h₁
  obtain ⟨h₀, -, rfl, ho⟩ := readOpening_ok hs hc h₁
  have hroom := ho.sink.room_eq
  have hle := ho.sink.le_room
  have hsent := ho.opens.length_sent_le
  rw [Header.length_openingPuff] at hroom hle
  refine failsOnly_bind_ok run_get ?_
  dsimp only
  rw [ho.lens_eq]
  have htotal := ho.opens.total_le
  refine failsOnly_bind (failsOnly_focus ((LengthReading.failsOnly_readTokens
    (s := ⟨s₁.reader, s₁.sink, []⟩) ho.decodes ho.opens.code_feasible (length_ofSent _)
    ho.reader.wellFormed).mono fun e he => he.mono fun h => ?_)) fun m s₂ h₂ => ?_
  · simp only [maxPuffSize, codeLengthCount, maxLitLenCount, maxDistanceCount] at h htotal hsent ⊢
    omega
  · obtain ⟨⟨r, k, lens⟩, hp, rfl⟩ := readLengths_inv h₂
    obtain ⟨ts, hcov, -, hall⟩ :=
      LengthReading.readTokens_ok ho.decodes ho.opens.code_feasible ho.reader.wellFormed hp
    have hlen := LengthReading.length_le_of_readTokens hp
    refine failsOnly_loadTables m r k ho.ready (expandAll_nil_le hall.lens) ?_
      (Header.litLen_le_of_covers hcov hall.lens)
    simp only [List.length_nil, maxLitLenCount, maxDistanceCount, slotSymbols] at hlen htotal ⊢
    omega

end Decoding

/-! ## Encoding -/

namespace LengthWriting

variable {table : CodeTable} {code : Lengths} {s : LengthWriting}

/-- By induction on the bytes: each token takes at most 14 bits of room, seven for its code and
seven for its extra bits, and at least one of the missing lengths. -/
theorem failsOnly_writeTokens (he : table.Encodes code) (hsize : 19 ≤ table.size)
    (hlen : 19 ≤ code.length) (hf : code.Feasible) (hmax : code.maxLength ≤ maxCodeLengthBits)
    {missing : Nat} {bytes : List UInt8} (hs : s.writer.WellFormed) :
    FailsOnly (EncodeFailure (s.writer.room < 14 * missing))
      (writeTokens table code missing bytes) s := by
  induction bytes generalizing missing s with
  | nil =>
    cases missing with
    | zero => exact failsOnly_pure
    | succ missing => exact failsOnly_error rfl .input
  | cons byte bytes ih =>
    cases missing with
    | zero => exact failsOnly_pure
    | succ missing =>
      have hbits : ∀ t : Token, code.lengthOf t.symbol ≤ 7 ∧ (t.bits code).length ≤ 14 := fun t => by
        have hl := Nat.le_trans (Lengths.lengthOf_le_maxLength code t.symbol) hmax
        have := t.extraWidth_le
        simp only [maxCodeLengthBits, Token.length_bits] at hl ⊢
        omega
      have hrun := writeToken_run he hsize hlen hf hs byte
      rw [writeTokens]
      refine failsOnly_bind ?_ fun t s₁ hstep => ?_
      · intro e s₁ hstep
        rw [hstep] at hrun
        cases hrun with
        | invalidToken => exact .invalidToken _
        | unusedSymbol => exact .unusedSymbol _
        | noPrevious => exact .repeatWithoutPrevious
        | @noRoom t _ _ h =>
          have := hbits t
          exact .output (by omega)
        | @noRoomExtra t _ _ _ h =>
          have := hbits t
          exact .output (by omega)
      · rw [hstep] at hrun
        cases hrun with
        | token _ _ _ hw =>
          have hpos := t.count_pos
          have hroom := hw.room_eq
          have := hbits t
          refine failsOnly_bind ((ih hw.wellFormed).mono fun e he => he.mono fun hshort => ?_)
            fun _ _ _ => failsOnly_pure
          dsimp only at hshort
          omega

end LengthWriting

namespace Encoding

variable {s : Encoding} {E : Error → Prop}

theorem failsOnly_setCodeLengths (hE : ∀ value width, E (.invalid (.headerField value width)))
    {pairs : List (Nat × UInt8)}
    (hsym : ∀ pair ∈ pairs, pair.1 < s.codec.codeLength.lens.length) :
    FailsOnly E (setCodeLengths pairs) s := by
  induction pairs generalizing s with
  | nil => exact failsOnly_pure
  | cons pair pairs ih =>
    obtain ⟨symbol, len⟩ := pair
    rw [setCodeLengths]
    by_cases hlt : 7 < len
    · rw [if_pos hlt]
      exact failsOnly_error rfl (hE _ _)
    · rw [if_neg hlt]
      refine failsOnly_bind_ok (onCodec_ok (Codec.setCodeLength_ok len (hsym (symbol, len) (by simp)))) ?_
      exact ih fun pair hp => by simpa [Codec.withCode] using hsym pair (by simp [hp])

theorem failsOnly_checkPadding (hE : ∀ nibble, E (.invalid (.paddingNibble nibble)))
    {sizes : AlphabetSizes} {packed : List UInt8} (hpacked : packed.length = sizes.packedSize) :
    FailsOnly E (checkPadding sizes packed) s := by
  unfold checkPadding
  by_cases hodd : sizes.codeLength % 2 = 1
  · have hne : packed ≠ [] := by
      rintro rfl
      simp only [List.length_nil, AlphabetSizes.packedSize] at hpacked
      omega
    rw [if_pos hodd, List.getLast?_eq_some_getLast hne]
    dsimp only
    split
    · exact failsOnly_error rfl (hE _)
    · exact failsOnly_pure
  · rw [if_neg hodd]
    exact failsOnly_pure

theorem failsOnly_prepareCode (hfield : ∀ value width, E (.invalid (.headerField value width)))
    (hpad : ∀ nibble, E (.invalid (.paddingNibble nibble)))
    (hover : ∀ length count, E (.invalid (.oversubscribed length count))) {sizes : AlphabetSizes}
    {packed : List UInt8} (hc : s.codec.Ready) (hpacked : packed.length = sizes.packedSize) :
    FailsOnly E (prepareCode sizes packed) s := by
  have hsym : ∀ pair ∈ sizes.sentSymbols.zip (nibbles packed),
      pair.1 < (s.codec.withCode (.replicate codeLengthCount 0)).codeLength.lens.length := by
    intro pair hp
    simpa [Codec.withCode] using sizes.lt_of_mem_sentSymbols _ (List.of_mem_zip hp).1
  refine failsOnly_bind_ok (onCodec_ok (Codec.clearCodeLengths_ok hc.length_codeLength)) ?_
  refine failsOnly_bind (failsOnly_setCodeLengths hfield hsym) fun _ s₁ h₁ => ?_
  have hset := setCodeLengths_ok (s := { s with codec := s.codec.withCode (.replicate codeLengthCount 0) })
    hsym (le_of_setCodeLengths h₁)
  rw [h₁] at hset
  cases hset
  refine failsOnly_bind (failsOnly_checkPadding hpad hpacked) fun _ s₂ h₂ => ?_
  obtain ⟨rfl, -⟩ := padding_of_checkPadding h₂
  refine failsOnly_bind (failsOnly_discard (failsOnly_focus
    (Codec.failsOnly_building_buildCodes hover (fun _ => rfl) ?_ ?_))) fun _ _ _ => ?_
  · have hseven : ∀ len ∈ setLengths (.replicate codeLengthCount 0)
        (sizes.sentSymbols.zip (nibbles packed)), len.toNat ≤ 7 :=
      setLengths_le (by simp) (le_of_setCodeLengths h₁)
    exact fun len hmem => Nat.le_trans (hseven len hmem) (by decide)
  · simp [Codec.withCode, codeLengthCount, symbolRange]
  · exact failsOnly_ok rfl

theorem failsOnly_buildTables (hover : ∀ length count, E (.invalid (.oversubscribed length count)))
    {sizes : AlphabetSizes} {lens : Lengths} {c : Codec} (w : BitWriter)
    (hm : ∀ len ∈ lens, len.toNat ≤ maxCodeBits) (hlen : lens.length ≤ symbolRange)
    (hn : sizes.litLen ≤ lens.length) : FailsOnly E (buildTables sizes) ⟨c.withLitLen lens, w⟩ := by
  refine failsOnly_bind_ok (onCodec_ok (s := ⟨c.withLitLen lens, w⟩) (Codec.splitLengths_ok hn)) ?_
  refine failsOnly_bind (failsOnly_discard (failsOnly_focus (Codec.failsOnly_building_buildCodes
    hover (fun _ => rfl) (fun len hmem => hm len (List.mem_of_mem_take hmem)) ?_))) ?_
  · exact Nat.le_trans (List.length_take_le' _ _) hlen
  · intro _ s₁ h₁
    obtain ⟨n, h₁⟩ := ok_of_discard h₁
    obtain ⟨c₁, hbuild, rfl⟩ := ok_of_focus h₁
    obtain ⟨t, notes, -, rfl⟩ := Codec.ok_of_building (fun _ => rfl) hbuild
    refine failsOnly_discard (failsOnly_focus (Codec.failsOnly_building_buildCodes
      hover (fun _ => rfl) (fun len hmem => hm len (List.mem_of_mem_drop hmem)) ?_))
    exact Nat.le_trans (List.drop_sublist _ _).length_le hlen

theorem failsOnly_loadTables {sizes : AlphabetSizes} {lens : Lengths} {c : Codec} {short : Prop}
    (size tokens : Nat) (w : BitWriter) (hm : ∀ len ∈ lens, len.toNat ≤ maxCodeBits)
    (hlen : lens.length ≤ symbolRange) (hn : sizes.litLen ≤ lens.length) :
    FailsOnly (EncodeFailure short) (loadTables sizes size tokens) ⟨c.withLitLen lens, w⟩ := by
  rw [loadTables_eq]
  refine failsOnly_bind (failsOnly_buildTables .oversubscribed w hm hlen hn) fun _ s₁ h₁ => ?_
  by_cases hused : 3 + sizes.packedSize + tokens = size
  · rw [hused]
    exact failsOnly_ok (finishHeader_ok size)
  · exact failsOnly_error (finishHeader_error hused) (.trailingBytes _ _)

/-- From the first bit on, room lacks only in a writer with less than what the longest header takes
after its three block header bits. -/
theorem failsOnly_writeBody {h : Header} {c : Codec} {w : BitWriter} (size : Nat) (bytes : List UInt8)
    (ho : h.Opens) (hw : w.WellFormed) (hc : c.Ready) (hlens : c.codeLength.lens = h.code)
    (henc : c.codeLength.codes.Encodes h.code) :
    FailsOnly (EncodeFailure (w.room < maxHeaderBits - 3))
      (writeBody (h.hlit, h.hdist, h.hclen) h.sizes size bytes) ⟨c, w⟩ := by
  have hsent := ho.length_sent_le
  have hopening := h.length_openingBits
  have htotal := ho.total_le
  simp only [codeLengthCount, maxLitLenCount, maxDistanceCount] at hsent htotal
  have hsize : 19 ≤ c.codeLength.codes.size := by rw [hc.codeLength.size]; decide
  have hcode : 19 ≤ h.code.length := by rw [Header.code, length_ofSent]; decide
  rcases Emits.writeOpening ho hlens w hw with ⟨-, w₁, hrun, ha⟩ | ⟨hroom, s', hrun⟩
  · have hroom := ha.room_eq
    refine failsOnly_bind_ok hrun (failsOnly_bind_ok run_get ?_)
    dsimp only
    rw [hlens]
    refine failsOnly_bind (failsOnly_focus ((LengthWriting.failsOnly_writeTokens
      (s := ⟨w₁, []⟩) henc hsize hcode ho.code_feasible ho.maxLength_le ha.wellFormed).mono
      fun e he => he.mono fun hshort => ?_)) fun m s₂ h₂ => ?_
    · simp only [maxHeaderBits, codeLengthCount, maxLitLenCount, maxDistanceCount] at hshort ⊢
      omega
    · obtain ⟨⟨w₂, lens⟩, hp, rfl⟩ := writeLengths_inv (s := ⟨c, w₁⟩) h₂
      obtain ⟨ts, rest, hcov, -, -, hall⟩ := LengthWriting.writeTokens_ok henc hsize hcode
        ho.code_feasible ha.wellFormed hp
      have hlen := LengthWriting.length_le_of_writeTokens hp
      refine failsOnly_loadTables size m w₂ (expandAll_nil_le hall.lens) ?_
        (Header.litLen_le_of_covers hcov hall.lens)
      simp only [List.length_nil, symbolRange] at hlen ⊢
      omega
  · refine failsOnly_error (run_bind_error hrun) (.output ?_)
    simp only [maxHeaderBits, codeLengthCount, maxLitLenCount, maxDistanceCount]
    omega

/-- Encoding a header ends in one of the listed errors, if it fails. A writer with room for
`maxHeaderBits` bits, less the three of the block header, never lacks room, whatever the bytes are. -/
theorem failsOnly_encodeHeader (puff : List UInt8) (hs : s.writer.WellFormed) (hc : s.codec.Sized) :
    FailsOnly (EncodeFailure (s.writer.room < maxHeaderBits - 3)) (encodeHeader puff) s := by
  intro e s' hrun
  obtain ⟨c₀, hready, ⟨e₀, he, hfail⟩ |
    ⟨hlit, hdist, hclen, body, sizes, rfl, hl, hd, hcl, rfl, hle, hfront⟩⟩ := encodeHeader_cases hc puff
  · injection hrun.symm.trans (hfail s.writer) with he₀
    rcases he with rfl | ⟨_, _, _, he⟩
    · exact he₀ ▸ .input
    · exact he₀ ▸ AlphabetSizes.failure_of_ofFields .headerField .alphabetSize he
  · have hpacked := List.length_take_of_le hle
    refine failsOnly_bind (failsOnly_prepareCode .headerField .paddingNibble .oversubscribed hready
      hpacked) (fun _ s₁ h₁ => ?_) e s' ((hfront s.writer).symm.trans hrun)
    obtain ⟨sent, c₁, ho, -, rfl, hready₁, hlens, henc⟩ :=
      opens_of_prepareCode hl hd hcl hready hpacked h₁
    exact failsOnly_writeBody (h := ⟨hlit.toNat, hdist.toNat, hclen.toNat, sent, []⟩) _ _ ho hs
      hready₁ hlens henc

end Encoding
end DeflateHeader
