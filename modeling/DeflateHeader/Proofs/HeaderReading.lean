import DeflateHeader.Proofs.CodecBuilds
import DeflateHeader.Proofs.Header
import DeflateHeader.Proofs.TokenReading

/-!
# Decoding a dynamic header

`ReadsHeader h s s'` says that `s'` is `s` after the header `h` was decoded: its bits were consumed,
its puff form was written, and the codec holds its lengths and tables for them.

If `decodeHeader` succeeds, it has read a valid header (`decodeHeader_ok`). If the bits begin with a
valid header and there is room for its puff form, it reads exactly this header, or runs out of input
when the longest code does not fit into what is left at the start of some token
(`decodeHeader_run`). What the codec did before has no influence.

`decodeHeader_eq` divides the decoder into the part up to the tokens, the tokens, and the part that
builds the tables.
-/

namespace DeflateHeader

namespace Decoding

variable {α : Type} {s s' : Decoding} {a : α} {e : Error}

theorem onCodec_ok {act : EStateM Error Codec α} {c : Codec} (h : act s.codec = .ok a c) :
    onCodec act s = .ok a { s with codec := c } :=
  focus_ok h

theorem onReader_ok {act : EStateM Error BitReader α} {r : BitReader}
    (h : act s.reader = .ok a r) : onReader act s = .ok a { s with reader := r } :=
  focus_ok h

theorem onReader_error {act : EStateM Error BitReader α} {r : BitReader}
    (h : act s.reader = .error e r) : onReader act s = .error e { s with reader := r } :=
  focus_error h

theorem onSink_ok {act : EStateM Error ByteSink α} {k : ByteSink} (h : act s.sink = .ok a k) :
    onSink act s = .ok a { s with sink := k } :=
  focus_ok h

section Lengths

variable {table : LookupTable} {code : Lengths} {m n : Nat} {p : LengthReading}

theorem readLengths_ok (h : LengthReading.readTokens table code n ⟨s.reader, s.sink, []⟩ = .ok m p) :
    onLengths (LengthReading.readLengths table code n) s =
      .ok m ⟨s.codec.withLitLen p.lens, p.reader, p.sink⟩ :=
  focus_ok h

theorem readLengths_error
    (h : LengthReading.readTokens table code n ⟨s.reader, s.sink, []⟩ = .error e p) :
    onLengths (LengthReading.readLengths table code n) s =
      .error e ⟨s.codec.withLitLen p.lens, p.reader, p.sink⟩ :=
  focus_error h

theorem readLengths_inv (h : onLengths (LengthReading.readLengths table code n) s = .ok m s') :
    ∃ p, LengthReading.readTokens table code n ⟨s.reader, s.sink, []⟩ = .ok m p ∧
      s' = ⟨s.codec.withLitLen p.lens, p.reader, p.sink⟩ :=
  ok_of_focus h

end Lengths

theorem needRoom_ok {n : Nat} (h : n ≤ s.sink.room) : needRoom n s = .ok () s := by
  unfold needRoom
  rw [run_bind_ok run_get, if_neg (Nat.not_lt.mpr h)]
  rfl

theorem room_of_needRoom {n : Nat} (h : needRoom n s = .ok () s') : n ≤ s.sink.room ∧ s' = s := by
  unfold needRoom at h
  rw [run_bind_ok run_get] at h
  by_cases hlt : s.sink.room < n
  · rw [if_pos hlt] at h
    cases h
  · rw [if_neg hlt] at h
    cases h
    exact ⟨Nat.le_of_not_lt hlt, rfl⟩

/-! ## Fields -/

theorem field_run {n : Nat} (hs : s.reader.WellFormed) (hn : n ≤ 32) (hc : n ≤ s.reader.cached) :
    ∃ v r, field n s = .ok v { s with reader := r } ∧ v < 2 ^ n ∧ s.reader.Moves n r ∧
      s.reader.bits = Bits.ofNat n v ++ r.bits ∧ r.cached = s.reader.cached - n := by
  obtain ⟨r, hd, hm, hcached⟩ := BitReader.drop_run hs hn hc
  have hlen : (s.reader.bits.take n).length = n := by
    have := hm.le_remaining
    rw [List.length_take, BitReader.length_bits]
    omega
  refine ⟨Bits.toNat (s.reader.bits.take n), r, ?_, ?_, hm, ?_, hcached⟩
  · unfold field
    rw [run_bind_ok (onReader_ok (BitReader.peek_run hn hc)), run_bind_ok (onReader_ok hd)]
    rfl
  · simpa only [hlen] using Bits.toNat_lt (s.reader.bits.take n)
  · rw [Bits.ofNat_toNat_of_length hlen]
    exact hm.append_bits

theorem readSizes_error (h : s.reader.remaining < 14) :
    readSizes s = .error .insufficientInput s := by
  unfold readSizes
  rw [run_bind_error (onReader_error (BitReader.ensure_error (by decide) h))]

/-- Three fields that are left are read, and their bytes written, before they are judged. -/
theorem readSizes_run (hs : s.reader.WellFormed) (h : 14 ≤ s.reader.remaining)
    (hroom : 3 ≤ s.sink.room) :
    ∃ hlit hdist hclen r k, hlit < 32 ∧ hdist < 32 ∧ hclen < 16 ∧ s.reader.Moves 14 r ∧
      s.reader.bits = Header.fieldBits hlit hdist hclen ++ r.bits ∧
      s.sink.Gets (Header.fieldBytes hlit hdist hclen) k ∧
      readSizes s = match AlphabetSizes.ofFields hlit hdist hclen with
        | .ok sizes => .ok sizes { s with reader := r, sink := k }
        | .error e => .error e { s with reader := r, sink := k } := by
  obtain ⟨r₀, he, hm₀, hc₀⟩ := BitReader.ensure_ok hs (by decide) h
  obtain ⟨hlit, r₁, h₁, hl, hm₁, hb₁, hc₁⟩ :=
    field_run (s := { s with reader := r₀ }) (n := 5) hm₀.wellFormed (by decide) (by dsimp only; omega)
  obtain ⟨hdist, r₂, h₂, hd, hm₂, hb₂, hc₂⟩ :=
    field_run (s := { s with reader := r₁ }) (n := 5) hm₁.wellFormed (by decide)
      (by dsimp only at hc₁ ⊢; omega)
  obtain ⟨hclen, r₃, h₃, hc, hm₃, hb₃, -⟩ :=
    field_run (s := { s with reader := r₂ }) (n := 4) hm₂.wellFormed (by decide)
      (by dsimp only at hc₁ hc₂ ⊢; omega)
  dsimp only at h₁ h₂ h₃ hb₁ hb₂ hb₃ hm₁ hm₂ hm₃
  obtain ⟨k₁, hp₁, hg₁⟩ := ByteSink.push_ok (UInt8.ofNat hlit) (Nat.lt_of_lt_of_le (by decide) hroom)
  have hr₁ := hg₁.room_eq
  obtain ⟨k₂, hp₂, hg₂⟩ := ByteSink.push_ok (UInt8.ofNat hdist)
    (by rw [hr₁, List.length_singleton]; omega)
  have hr₂ := hg₂.room_eq
  obtain ⟨k₃, hp₃, hg₃⟩ := ByteSink.push_ok (UInt8.ofNat hclen)
    (by rw [hr₂, hr₁, List.length_singleton, List.length_singleton]; omega)
  have hmoves : s.reader.Moves 14 r₃ := ((hm₀.trans hm₁).trans hm₂).trans hm₃
  refine ⟨hlit, hdist, hclen, r₃, k₃, hl, hd, hc, hmoves, ?_, (hg₁.trans hg₂).trans hg₃, ?_⟩
  · have hb₀ : r₀.bits = s.reader.bits := by simpa using hm₀.bits_eq
    rw [← hb₀, hb₁, hb₂, hb₃, Header.fieldBits, List.append_assoc, List.append_assoc]
  · unfold readSizes
    rw [run_bind_ok (onReader_ok he), run_bind_ok h₁, run_bind_ok h₂, run_bind_ok h₃,
      run_bind_ok (onSink_ok (s := { s with reader := r₃ }) hp₁),
      run_bind_ok (onSink_ok (s := ⟨s.codec, r₃, k₁⟩) hp₂),
      run_bind_ok (onSink_ok (s := ⟨s.codec, r₃, k₂⟩) hp₃)]
    cases AlphabetSizes.ofFields hlit hdist hclen <;> rfl

/-- Fields that are read without an error were left and are in range. -/
theorem readSizes_inv {sizes : AlphabetSizes} (hs : s.reader.WellFormed) (hroom : 3 ≤ s.sink.room)
    (h : readSizes s = .ok sizes s') :
    ∃ hlit hdist hclen r k, hlit ≤ 29 ∧ hdist ≤ 29 ∧ hclen ≤ 15 ∧
      sizes = ⟨hlit + 257, hdist + 1, hclen + 4⟩ ∧ s' = { s with reader := r, sink := k } ∧
      s.reader.Moves 14 r ∧ s.reader.bits = Header.fieldBits hlit hdist hclen ++ r.bits ∧
      s.sink.Gets (Header.fieldBytes hlit hdist hclen) k := by
  have hrem : 14 ≤ s.reader.remaining := by
    by_contra hlt
    rw [readSizes_error (Nat.lt_of_not_le hlt)] at h
    cases h
  obtain ⟨hlit, hdist, hclen, r, k, -, -, -, hm, hbits, hg, hsizes⟩ := readSizes_run hs hrem hroom
  have hfields : hlit ≤ 29 ∧ hdist ≤ 29 ∧ hclen ≤ 15 := by
    by_contra hn
    obtain ⟨detail, he⟩ := AlphabetSizes.ofFields_error hn
    rw [hsizes, he] at h
    cases h
  obtain ⟨hl, hd, hc⟩ := hfields
  rw [hsizes, AlphabetSizes.ofFields_ok hl hd hc] at h
  cases h
  exact ⟨hlit, hdist, hclen, r, k, hl, hd, hc, rfl, rfl, hm, hbits, hg⟩

/-! ## Lengths of the code-length alphabet -/

/-- One length is read and set, and the sink changes as its half byte wants it. -/
theorem readCodeLengths_cons (low : Bool) {symbol : Nat} (symbols : List Nat)
    (hs : s.reader.WellFormed) (h : 3 ≤ s.reader.remaining)
    (hsym : symbol < s.codec.codeLength.lens.length) :
    ∃ (len : UInt8) (r : BitReader), len.toNat ≤ 7 ∧ s.reader.Moves 3 r ∧
      s.reader.bits = Bits.ofNat 3 len.toNat ++ r.bits ∧
      ∀ k, (if low then ByteSink.orLast len else ByteSink.push (len <<< 4)) s.sink = .ok () k →
        readCodeLengths low (symbol :: symbols) s = readCodeLengths (!low) symbols
          ⟨s.codec.withCode (s.codec.codeLength.lens.set symbol len), r, k⟩ := by
  obtain ⟨r, ht, hm⟩ := BitReader.take_ok hs (n := 3) (by decide) h
  have hlen : (s.reader.bits.take 3).length = 3 := by
    rw [List.length_take, BitReader.length_bits]
    omega
  have hlt := Bits.toNat_lt (s.reader.bits.take 3)
  rw [hlen] at hlt
  have hval : (UInt8.ofNat (Bits.toNat (s.reader.bits.take 3))).toNat =
      Bits.toNat (s.reader.bits.take 3) := by
    rw [UInt8.toNat_ofNat']
    omega
  refine ⟨UInt8.ofNat (Bits.toNat (s.reader.bits.take 3)), r, by omega, hm, ?_, fun k hk => ?_⟩
  · rw [hval, Bits.ofNat_toNat_of_length hlen]
    exact hm.append_bits
  · rw [readCodeLengths, run_bind_ok (onReader_ok ht)]
    dsimp only
    rw [run_bind_ok (onCodec_ok (s := { s with reader := r }) (Codec.setCodeLength_ok _ hsym))]
    cases low with
    | false =>
      rw [if_neg (by decide)] at hk ⊢
      rw [run_bind_ok (onSink_ok (s := ⟨_, r, s.sink⟩) hk)]
    | true =>
      rw [if_pos rfl] at hk ⊢
      rw [run_bind_ok (onSink_ok (s := ⟨_, r, s.sink⟩) hk)]

/-- Lengths that are left are read, set and packed. -/
theorem readCodeLengths_ok (symbols : List Nat) (hs : s.reader.WellFormed)
    (h : 3 * symbols.length ≤ s.reader.remaining)
    (hsym : ∀ symbol ∈ symbols, symbol < s.codec.codeLength.lens.length)
    (hroom : (symbols.length + 1) / 2 ≤ s.sink.room) :
    ∃ sent r k, sent.length = symbols.length ∧ (∀ len ∈ sent, len.toNat ≤ 7) ∧
      s.reader.Moves (3 * symbols.length) r ∧
      s.reader.bits = Header.lengthBits sent ++ r.bits ∧ s.sink.Gets (pack sent) k ∧
      readCodeLengths false symbols s =
        .ok () ⟨s.codec.withCode (setLengths s.codec.codeLength.lens (symbols.zip sent)), r, k⟩ := by
  induction symbols using List.twoStepInduction generalizing s with
  | nil => exact ⟨[], s.reader, s.sink, rfl, by simp, .refl hs, rfl, .refl _, rfl⟩
  | singleton symbol =>
    obtain ⟨len, r, hle, hm, hbits, hstep⟩ :=
      readCodeLengths_cons false [] hs h (hsym symbol (by simp))
    obtain ⟨k, hp, hg⟩ := ByteSink.push_ok (len <<< 4) (Nat.lt_of_lt_of_le (by simp) hroom)
    refine ⟨[len], r, k, rfl, by simpa using hle, hm, ?_, hg, ?_⟩
    · rw [hbits]
      simp [Header.lengthBits]
    · rw [hstep k hp]
      rfl
  | cons_cons symbol symbol' symbols ih =>
    simp only [List.length_cons] at h hroom
    obtain ⟨len, r, hle, hm, hbits, hstep⟩ :=
      readCodeLengths_cons false (symbol' :: symbols) hs (by omega) (hsym symbol (by simp))
    obtain ⟨k, hp, hg⟩ := ByteSink.push_ok (len <<< 4) (Nat.lt_of_lt_of_le (by simp) hroom)
    have hrem := hm.remaining_eq
    obtain ⟨len', r', hle', hm', hbits', hstep'⟩ :=
      readCodeLengths_cons true symbols
        (s := ⟨s.codec.withCode (s.codec.codeLength.lens.set symbol len), r, k⟩) hm.wellFormed
        (by dsimp only; omega) (by simpa [Codec.withCode] using hsym symbol' (by simp))
    obtain ⟨k', ho, hg'⟩ := ByteSink.orLast_ok len' hg
    have hrem' := hm'.remaining_eq
    have hroom' := hg'.room_eq
    dsimp only at hrem'
    rw [List.length_singleton] at hroom'
    obtain ⟨sent, r'', k'', hlen, hle'', hm'', hbits'', hg'', hrun⟩ :=
      ih (s := ⟨(s.codec.withCode (s.codec.codeLength.lens.set symbol len)).withCode
          ((s.codec.codeLength.lens.set symbol len).set symbol' len'), r', k'⟩) hm'.wellFormed
        (by dsimp only; omega)
        (fun symbol'' hmem => by simpa [Codec.withCode] using hsym symbol'' (by simp [hmem]))
        (by dsimp only; omega)
    refine ⟨len :: len' :: sent, r'', k'', by simp [hlen], ?_, ?_, ?_, hg'.trans hg'', ?_⟩
    · simpa [hle, hle'] using hle''
    · have := (hm.trans hm').trans hm''
      simp only [List.length_cons]
      rwa [show 3 * (symbols.length + 1 + 1) = 3 + 3 + 3 * symbols.length by omega]
    · rw [hbits, hbits', hbits'']
      simp [Header.lengthBits]
    · exact (hstep k hp).trans ((hstep' k' ho).trans hrun)

/-- Reading succeeds only if enough bits are left. -/
theorem remaining_of_readCodeLengths {low : Bool} {symbols : List Nat} (hs : s.reader.WellFormed)
    (h : readCodeLengths low symbols s = .ok () s') : 3 * symbols.length ≤ s.reader.remaining := by
  induction symbols generalizing low s with
  | nil => exact Nat.zero_le _
  | cons symbol symbols ih =>
    rw [readCodeLengths] at h
    obtain ⟨v, s₁, h₁, h⟩ := ok_of_bind h
    obtain ⟨r, ht, rfl⟩ := ok_of_focus h₁
    obtain ⟨-, hm⟩ := BitReader.take_inv hs (by decide) ht
    obtain ⟨_, s₂, h₂, h⟩ := ok_of_bind h
    obtain ⟨c, -, rfl⟩ := ok_of_focus h₂
    have hrest : ∃ k, readCodeLengths (!low) symbols ⟨c, r, k⟩ = .ok () s' := by
      cases low with
      | false =>
        rw [if_neg (by decide)] at h
        obtain ⟨_, s₃, h₃, h⟩ := ok_of_bind h
        obtain ⟨k, -, rfl⟩ := ok_of_focus h₃
        exact ⟨k, h⟩
      | true =>
        rw [if_pos rfl] at h
        obtain ⟨_, s₃, h₃, h⟩ := ok_of_bind h
        obtain ⟨k, -, rfl⟩ := ok_of_focus h₃
        exact ⟨k, h⟩
    obtain ⟨k, hrest⟩ := hrest
    have hle := ih hm.wellFormed hrest
    have := hm.remaining_eq
    have := hm.le_remaining
    dsimp only at hle
    rw [List.length_cons]
    omega

theorem readCodeLengths_inv {symbols : List Nat} (hs : s.reader.WellFormed)
    (hsym : ∀ symbol ∈ symbols, symbol < s.codec.codeLength.lens.length)
    (hroom : (symbols.length + 1) / 2 ≤ s.sink.room)
    (h : readCodeLengths false symbols s = .ok () s') :
    ∃ sent r k, sent.length = symbols.length ∧ (∀ len ∈ sent, len.toNat ≤ 7) ∧
      s' = ⟨s.codec.withCode (setLengths s.codec.codeLength.lens (symbols.zip sent)), r, k⟩ ∧
      s.reader.bits = Header.lengthBits sent ++ r.bits ∧ s.sink.Gets (pack sent) k := by
  obtain ⟨sent, r, k, hlen, hle, -, hbits, hg, hread⟩ :=
    readCodeLengths_ok symbols hs (remaining_of_readCodeLengths hs h) hsym hroom
  rw [h] at hread
  cases hread
  exact ⟨sent, r, k, hlen, hle, rfl, hbits, hg⟩

/-! ## Up to the tokens -/

/-- The decoder up to the tokens. -/
def readOpening : EStateM Error Decoding AlphabetSizes := do
  onCodec Codec.begin
  needRoom 3
  let sizes ← readSizes
  onCodec (Codec.remark (.sizes sizes))
  needRoom sizes.packedSize
  onCodec Codec.clearCodeLengths
  readCodeLengths false sizes.sentSymbols
  discard <| onCodec (Codec.onCodeLength Alphabet.buildLookup)
  return sizes

/-- The decoder from the lengths of the code-length alphabet to its table. -/
def readCode (sizes : AlphabetSizes) : EStateM Error Decoding Unit := do
  onCodec Codec.clearCodeLengths
  readCodeLengths false sizes.sentSymbols
  discard <| onCodec (Codec.onCodeLength Alphabet.buildLookup)

/-- The decoder after the tokens. -/
def loadTables (sizes : AlphabetSizes) (tokens : Nat) : EStateM Error Decoding Nat := do
  onCodec (Codec.splitLengths sizes.litLen)
  let litLenBits ← onCodec (Codec.onLitLen Alphabet.buildLookup)
  let distanceBits ← onCodec (Codec.onDistance Alphabet.buildLookup)
  let size := 3 + sizes.packedSize + tokens
  onCodec (Codec.remark (.decoded size litLenBits distanceBits))
  onCodec (Codec.finish .dynamicDecode)
  return size

theorem decodeHeader_eq :
    decodeHeader = (do
      let sizes ← readOpening
      let alphabet := (← get).codec.codeLength
      let tokens ← onLengths (LengthReading.readLengths alphabet.lookup alphabet.lens sizes.total)
      loadTables sizes tokens) := by
  simp only [decodeHeader, readOpening, loadTables, bind_assoc, pure_bind]

theorem readOpening_eq :
    readOpening = (do
      onCodec Codec.begin
      needRoom 3
      let sizes ← readSizes
      onCodec (Codec.remark (.sizes sizes))
      needRoom sizes.packedSize
      readCode sizes
      return sizes) := by
  simp only [readOpening, readCode, bind_assoc]

/-- `s'` is `s` after the part of the header `h` before the tokens was decoded. -/
structure ReadsOpening (h : Header) (s s' : Decoding) : Prop where
  opens : h.Opens
  bits : s.reader.bits = h.openingBits ++ s'.reader.bits
  reader : s.reader.Moves h.openingBits.length s'.reader
  sink : s.sink.Gets h.openingPuff s'.sink
  ready : s'.codec.Ready
  lens_eq : s'.codec.codeLength.lens = h.code
  decodes : s'.codec.codeLength.lookup.Decodes h.code

variable {h : Header}

/-- A code with lengths of three bits fits the code-length alphabet. -/
theorem code_fits (ho : h.Opens) :
    h.code.length ≤ slotSymbols ∧ 2 ^ h.code.maxLength ≤ slotCount maxCodeLengthBits := by
  constructor
  · rw [Header.code, length_ofSent]
    decide
  · exact Nat.pow_le_pow_right (by decide) ho.maxLength_le

/-- The lengths of a header are read, set and packed, and make a table for its code. -/
theorem readCode_run (ho : h.Opens) (hc : s.codec.Ready) (hs : s.reader.WellFormed) {rest : List Bool}
    (hbits : s.reader.bits = Header.lengthBits h.sent ++ rest)
    (hroom : (h.sent.length + 1) / 2 ≤ s.sink.room) :
    ∃ c r k, readCode h.sizes s = .ok () ⟨c, r, k⟩ ∧ c.Ready ∧ c.codeLength.lens = h.code ∧
      c.codeLength.lookup.Decodes h.code ∧ s.reader.Moves (3 * h.sent.length) r ∧ r.bits = rest ∧
      s.sink.Gets (pack h.sent) k := by
  have hclear := Codec.clearCodeLengths_ok hc.length_codeLength
  have hsymbols := ho.length_sentSymbols
  have hrem : 3 * h.sent.length ≤ s.reader.remaining := by
    rw [← BitReader.length_bits, hbits, List.length_append, Header.length_lengthBits]
    omega
  obtain ⟨sent, r, k, hlen, hle, hm, hbits', hg, hread⟩ :=
    readCodeLengths_ok h.sizes.sentSymbols
      (s := { s with codec := s.codec.withCode (List.replicate codeLengthCount 0) }) hs
      (by rw [hsymbols]; exact hrem) (by simpa [Codec.withCode] using h.sizes.lt_of_mem_sentSymbols)
      (by rw [hsymbols]; exact hroom)
  -- The lengths that were read are those of the header.
  obtain ⟨rfl, hrest⟩ :=
    Header.lengthBits_inj (by omega) ho.sent_le hle (hbits.symm.trans hbits')
  replace hread : readCodeLengths false h.sizes.sentSymbols
      { s with codec := s.codec.withCode (List.replicate codeLengthCount 0) } =
        .ok () ⟨s.codec.withCode h.code, r, k⟩ := by
    rw [hread, ← ho.setLengths_eq]
    rfl
  have hready : (s.codec.withCode h.code).Ready := hc.withCode (length_ofSent h.sent)
  obtain ⟨t, book, notes, hbuild, hdec, hcap⟩ :=
    Codec.onCodeLength_buildLookup_ok (c := s.codec.withCode h.code) ho.code_feasible
      (code_fits ho).1 (hready.codeLength.capacity ▸ (code_fits ho).2)
  refine ⟨{ s.codec.withCode h.code with
      codeLength := { (s.codec.withCode h.code).codeLength with lookup := t }, book, notes }, r, k, ?_,
    ⟨⟨hcap.trans hready.codeLength.capacity, hready.codeLength.size⟩, hready.litLen, hready.distance,
      hready.length_codeLength⟩, rfl, hdec, hsymbols ▸ hm, hrest.symm, hg⟩
  unfold readCode
  rw [run_bind_ok (onCodec_ok hclear), run_bind_ok hread]
  exact run_discard_ok (onCodec_ok (s := ⟨s.codec.withCode h.code, r, k⟩) hbuild)

/-- A table is only made for lengths that were there, and that make a feasible code. -/
theorem readCode_inv {sizes : AlphabetSizes} (hc : s.codec.Ready)
    (hsizes : sizes.codeLength ≤ codeLengthCount) (hs : s.reader.WellFormed)
    (hroom : sizes.packedSize ≤ s.sink.room) (hrun : readCode sizes s = .ok () s') :
    ∃ sent r k, sent.length = sizes.codeLength ∧ (∀ len ∈ sent, len.toNat ≤ 7) ∧
      (Lengths.ofSent sent).Feasible ∧ s.reader.bits = Header.lengthBits sent ++ BitReader.bits r ∧
      s.sink.Gets (pack sent) k := by
  have hsymbols := AlphabetSizes.length_sentSymbols hsizes
  have hsym : ∀ symbol ∈ sizes.sentSymbols,
      symbol < (s.codec.withCode (List.replicate codeLengthCount 0)).codeLength.lens.length := by
    simpa [Codec.withCode] using sizes.lt_of_mem_sentSymbols
  unfold readCode at hrun
  rw [run_bind_ok (onCodec_ok (Codec.clearCodeLengths_ok hc.length_codeLength))] at hrun
  obtain ⟨_, s₁, h₁, hrun⟩ := ok_of_bind hrun
  obtain ⟨sent, r, k, hlen, hle, rfl, hbits, hg⟩ :=
    readCodeLengths_inv
      (s := { s with codec := s.codec.withCode (List.replicate codeLengthCount 0) }) hs hsym
      (by rw [hsymbols]; exact hroom) h₁
  obtain ⟨_, hbuild⟩ := ok_of_discard hrun
  obtain ⟨c, hbuild, -⟩ := ok_of_focus hbuild
  have hf : (setLengths (List.replicate codeLengthCount 0)
      ((codeLengthOrder.take sizes.codeLength).zip sent)).Feasible :=
    (Codec.feasible_of_building_buildLookup (fun _ => rfl) hbuild).1
  have hsent : sent.length = sizes.codeLength := hlen.trans hsymbols
  rw [← hsent, setLengths_sent (hsent ▸ hsizes)] at hf
  exact ⟨sent, r, k, hsent, hle, hf, hbits, hg⟩

/-- The fields of a header are read, and have sizes. -/
theorem readSizes_opens (hs : s.reader.WellFormed) (ho : h.Opens)
    (hbits : h.openingBits <+: s.reader.bits) (hroom : 3 ≤ s.sink.room) :
    ∃ r k, readSizes s = .ok h.sizes { s with reader := r, sink := k } ∧ s.reader.Moves 14 r ∧
      s.reader.bits = Header.fieldBits h.hlit h.hdist h.hclen ++ r.bits ∧
      s.sink.Gets (Header.fieldBytes h.hlit h.hdist h.hclen) k := by
  obtain ⟨rest, hrest⟩ := hbits
  have hrem : 14 ≤ s.reader.remaining := by
    rw [← BitReader.length_bits, ← hrest, List.length_append, Header.length_openingBits]
    omega
  obtain ⟨hlit, hdist, hclen, r, k, hl, hd, hcl, hm, hbits, hg, hsizes⟩ := readSizes_run hs hrem hroom
  -- The fields that were read are those of the header.
  have := ho.hlit_le; have := ho.hdist_le; have := ho.hclen_le
  have hfields := hbits
  rw [← hrest, Header.openingBits, List.append_assoc] at hfields
  obtain ⟨rfl, rfl, rfl, -⟩ :=
    Header.fieldBits_inj (by omega) (by omega) (by omega) hl hd hcl hfields
  rw [ho.ofFields_eq] at hsizes
  exact ⟨r, k, hsizes, hm, hbits, hg⟩

theorem readOpening_run (hs : s.reader.WellFormed) (hc : s.codec.Sized) (ho : h.Opens)
    (hbits : h.openingBits <+: s.reader.bits) (hroom : h.openingPuff.length ≤ s.sink.room) :
    ∃ s', readOpening s = .ok h.sizes s' ∧ ReadsOpening h s s' := by
  rw [Header.length_openingPuff] at hroom
  obtain ⟨c₀, hbegin, hready, -⟩ := Codec.begin_ok hc
  obtain ⟨r₁, k₁, hsizes, hm₁, hbits₁, hg₁⟩ :=
    readSizes_opens (s := { s with codec := c₀ }) hs ho hbits (by dsimp only; omega)
  dsimp only at hsizes hm₁ hbits₁ hg₁
  obtain ⟨rest, hlengths⟩ : Header.lengthBits h.sent <+: r₁.bits := by
    rwa [hbits₁, Header.openingBits, List.prefix_append_right_inj] at hbits
  have hpacked := ho.packedSize_eq
  have hroom₁ := hg₁.room_eq
  rw [length_pack] at hpacked
  rw [Header.length_fieldBytes] at hroom₁
  obtain ⟨c₁, hremark, hready₁⟩ : ∃ c₁, Codec.remark (.sizes h.sizes) c₀ = .ok () c₁ ∧ c₁.Ready :=
    ⟨_, Codec.remark_ok _ c₀, hready.with_notes _⟩
  obtain ⟨c₂, r₂, k₂, hcode, hready₂, hlens, hdec, hm₂, htail, hg₂⟩ :=
    readCode_run (s := ⟨c₁, r₁, k₁⟩) ho hready₁ hm₁.wellFormed hlengths.symm (by dsimp only; omega)
  refine ⟨⟨c₂, r₂, k₂⟩, ?_, ho, ?_, ?_, hg₁.trans hg₂, hready₂, hlens, hdec⟩
  · rw [readOpening_eq, run_bind_ok (onCodec_ok hbegin),
      run_bind_ok (needRoom_ok (s := { s with codec := c₀ }) (by dsimp only; omega)),
      run_bind_ok hsizes, run_bind_ok (onCodec_ok (s := ⟨c₀, r₁, k₁⟩) hremark),
      run_bind_ok (needRoom_ok (s := ⟨c₁, r₁, k₁⟩) (by dsimp only; omega)), run_bind_ok hcode]
    rfl
  · rw [hbits₁, Header.openingBits, List.append_assoc, htail, hlengths]
  · rw [Header.length_openingBits]
    exact hm₁.trans hm₂

/-- If the decoder gets to the tokens, the opening of a header was there and had room. -/
theorem readOpening_ok {sizes : AlphabetSizes} (hs : s.reader.WellFormed) (hc : s.codec.Sized)
    (hrun : readOpening s = .ok sizes s') :
    ∃ h : Header, h.tokens = [] ∧ sizes = h.sizes ∧ ReadsOpening h s s' := by
  obtain ⟨c₀, hbegin, hready, -⟩ := Codec.begin_ok hc
  have hsteps := hrun
  rw [readOpening_eq, run_bind_ok (onCodec_ok hbegin)] at hsteps
  obtain ⟨_, s₁, h₁, hsteps⟩ := ok_of_bind hsteps
  obtain ⟨hroom, rfl⟩ := room_of_needRoom h₁
  obtain ⟨sizes₂, s₂, h₂, hsteps⟩ := ok_of_bind hsteps
  obtain ⟨hlit, hdist, hclen, r₁, k₁, hl, hd, hcl, rfl, rfl, hm₁, hbits₁, hg₁⟩ :=
    readSizes_inv (s := { s with codec := c₀ }) hs hroom h₂
  obtain ⟨c₁, hremark, hready₁⟩ : ∃ c₁,
      Codec.remark (.sizes ⟨hlit + 257, hdist + 1, hclen + 4⟩) c₀ = .ok () c₁ ∧ c₁.Ready :=
    ⟨_, Codec.remark_ok _ c₀, hready.with_notes _⟩
  rw [run_bind_ok (onCodec_ok (s := ⟨c₀, r₁, k₁⟩) hremark)] at hsteps
  obtain ⟨_, s₃, h₃, hsteps⟩ := ok_of_bind hsteps
  obtain ⟨hroom₁, rfl⟩ := room_of_needRoom h₃
  obtain ⟨_, s₄, h₄, -⟩ := ok_of_bind hsteps
  obtain ⟨sent, r₂, k₂, hsent, hle, hf, hbits₂, hg₂⟩ := readCode_inv (s := ⟨c₁, r₁, k₁⟩) hready₁
    (by dsimp only; simp only [codeLengthCount]; omega) hm₁.wellFormed hroom₁ h₄
  have ho : (Header.mk hlit hdist hclen sent []).Opens := ⟨hl, hd, hcl, hsent, hle, hf⟩
  have hbits : (Header.mk hlit hdist hclen sent []).openingBits <+: s.reader.bits := by
    refine ⟨r₂.bits, ?_⟩
    dsimp only at hbits₁ hbits₂
    rw [hbits₁, hbits₂, Header.openingBits, List.append_assoc]
  obtain ⟨s₅, hok, hopens⟩ := readOpening_run hs hc ho hbits (hg₁.trans hg₂).le_room
  rw [hrun] at hok
  cases hok
  exact ⟨_, rfl, rfl, hopens⟩

/-! ## After the tokens -/

/-- Lengths that make two feasible codes are split, and both tables built. -/
theorem loadTables_run (sizes : AlphabetSizes) {lens : Lengths} {c : Codec} (tokens : Nat)
    (r : BitReader) (k : ByteSink) (hc : c.Ready) (hlen : lens.length ≤ slotSymbols)
    (hn : sizes.litLen ≤ lens.length) (hl : Lengths.Feasible (lens.take sizes.litLen))
    (hd : Lengths.Feasible (lens.drop sizes.litLen)) :
    ∃ c', loadTables sizes tokens ⟨c.withLitLen lens, r, k⟩ =
        .ok (3 + sizes.packedSize + tokens) ⟨c', r, k⟩ ∧
      c'.codeLength = c.codeLength ∧ c'.litLen.lens = lens.take sizes.litLen ∧
      c'.distance.lens = lens.drop sizes.litLen ∧ c'.loaded = some .dynamicDecode ∧
      c'.litLen.lookup.Decodes (lens.take sizes.litLen) ∧
      c'.distance.lookup.Decodes (lens.drop sizes.litLen) := by
  obtain ⟨n, m, c₁, c₂, h₁, h₂, hcl, hll, hdl, hld, hdd⟩ := Codec.buildLookups_ok hc hl hd
    (by rw [List.length_take]; omega) (by rw [List.length_drop]; omega)
  refine ⟨{ c₂ with notes := c₂.notes ++ [.decoded (3 + sizes.packedSize + tokens) n m]
                    loaded := some .dynamicDecode }, ?_, hcl, hll, hdl, rfl, hld, hdd⟩
  unfold loadTables
  rw [run_bind_ok (onCodec_ok (s := ⟨c.withLitLen lens, r, k⟩) (Codec.splitLengths_ok hn)),
    run_bind_ok (onCodec_ok (s := ⟨c.withLengths _ _, r, k⟩) h₁),
    run_bind_ok (onCodec_ok (s := ⟨c₁, r, k⟩) h₂)]
  rfl

/-- The tables are only loaded for feasible lengths. -/
theorem feasible_of_loadTables {sizes : AlphabetSizes} {tokens n : Nat} {lens : Lengths} {c : Codec}
    {r : BitReader} {k : ByteSink} (hn : sizes.litLen ≤ lens.length)
    (h : loadTables sizes tokens ⟨c.withLitLen lens, r, k⟩ = .ok n s') :
    Lengths.Feasible (lens.take sizes.litLen) ∧ Lengths.Feasible (lens.drop sizes.litLen) := by
  unfold loadTables at h
  rw [run_bind_ok (onCodec_ok (s := ⟨c.withLitLen lens, r, k⟩)
    (Codec.splitLengths_ok hn))] at h
  obtain ⟨_, s₁, h₁, h⟩ := ok_of_bind h
  obtain ⟨c₁, hb₁, rfl⟩ := ok_of_focus h₁
  obtain ⟨_, s₂, h₂, -⟩ := ok_of_bind h
  obtain ⟨c₂, hb₂, -⟩ := ok_of_focus h₂
  exact Codec.feasible_of_buildLookups hb₁ hb₂

/-! ## The whole header -/

/-- `s'` is `s` after the header `h` was decoded. -/
structure ReadsHeader (h : Header) (s s' : Decoding) : Prop where
  valid : h.Valid
  bits : s.reader.bits = h.bits ++ s'.reader.bits
  reader : s.reader.Moves h.bits.length s'.reader
  look : Lookahead h.code h.tokens s'.reader.remaining
  sink : s.sink.Gets h.puff s'.sink
  holds : s'.codec.Holds h
  loaded : s'.codec.loaded = some .dynamicDecode
  litLen_decodes : s'.codec.litLen.lookup.Decodes h.litLen
  distance_decodes : s'.codec.distance.lookup.Decodes h.distance

/-- What happens to bits that begin with a valid header: it is decoded, unless the lookahead runs
out of bits before one of its tokens. -/
theorem decodeHeader_run (hs : s.reader.WellFormed) (hc : s.codec.Sized) (hv : h.Valid)
    (hbits : h.bits <+: s.reader.bits) (hroom : h.puff.length ≤ s.sink.room) :
    (Lookahead h.code h.tokens (s.reader.remaining - h.bits.length) ∧
      ∃ s', decodeHeader s = .ok h.puff.length s' ∧ ReadsHeader h s s') ∨
    (¬ Lookahead h.code h.tokens (s.reader.remaining - h.bits.length) ∧
      ∃ s', decodeHeader s = .error .insufficientInput s') := by
  have hpuff := h.length_puff
  obtain ⟨s₁, hopening, ho⟩ := readOpening_run hs hc hv.toOpens ((List.prefix_append _ _).trans hbits)
    (by rw [Header.length_openingPuff]; omega)
  have htokens : tokenBits h.code h.tokens <+: s₁.reader.bits := by
    rw [ho.bits, Header.bits, List.prefix_append_right_inj] at hbits
    exact hbits
  have hroom₁ := ho.sink.room_eq
  have hrem₁ := ho.reader.remaining_eq
  have hlen := Header.length_bits h
  rw [Header.length_openingPuff] at hroom₁
  rw [Header.length_openingBits] at hrem₁
  have hrest : s.reader.remaining - h.bits.length =
      s₁.reader.remaining - (tokenBits h.code h.tokens).length := by omega
  have hread := LengthReading.readTokens_run (s := ⟨s₁.reader, s₁.sink, []⟩) ho.decodes
    hv.code_feasible ho.reader.wellFormed hv.covers hv.coded htokens hv.expands
    (by dsimp only; omega)
  rw [hrest, decodeHeader_eq, run_bind_ok hopening, run_bind_ok run_get, ho.lens_eq]
  rcases hread with ⟨hlook, ⟨r, k, lens⟩, hp, hall⟩ | ⟨hlook, p, hp⟩
  · have hlens : lens = h.lens := Option.some.inj (hall.lens.symm.trans hv.expands)
    subst hlens
    obtain ⟨c, hload, hcl, hll, hdl, hloaded, hld, hdd⟩ := loadTables_run h.sizes
      h.tokens.length r k ho.ready hv.length_lens_le
      (Nat.le_trans (Nat.le_add_right _ _) hv.total_le_length_lens) hv.litLen_feasible
      hv.distance_feasible
    refine .inl ⟨hlook, ⟨c, r, k⟩, ?_, hv, ?_, ?_, hall.look, ho.sink.trans hall.sink,
      ⟨by rw [hcl, ho.lens_eq], hll, hdl⟩, hloaded, hld, hdd⟩
    · rw [run_bind_ok (readLengths_ok hp), hload, hpuff, ho.opens.packedSize_eq, length_pack]
    · obtain ⟨rest, hrest⟩ := htokens
      rw [ho.bits, Header.bits, List.append_assoc, ← hrest,
        hall.reader.bits_of_append hrest.symm rfl]
    · rw [Header.bits, List.length_append]
      exact ho.reader.trans hall.reader
  · exact .inr ⟨hlook, _, run_bind_error (readLengths_error hp)⟩

/-- A decoder that succeeds has read a valid header. -/
theorem decodeHeader_ok {n : Nat} (hs : s.reader.WellFormed) (hc : s.codec.Sized)
    (hrun : decodeHeader s = .ok n s') : ∃ h, n = h.puff.length ∧ ReadsHeader h s s' := by
  have hsteps := hrun
  rw [decodeHeader_eq] at hsteps
  obtain ⟨sizes, s₁, h₁, hsteps⟩ := ok_of_bind hsteps
  obtain ⟨h₀, -, rfl, ho⟩ := readOpening_ok hs hc h₁
  rw [run_bind_ok run_get, ho.lens_eq] at hsteps
  obtain ⟨m, s₂, h₂, hload⟩ := ok_of_bind hsteps
  obtain ⟨⟨r, k, lens⟩, hp, rfl⟩ := readLengths_inv h₂
  obtain ⟨ts, hcov, rfl, hall⟩ :=
    LengthReading.readTokens_ok ho.decodes ho.opens.code_feasible ho.reader.wellFormed hp
  obtain ⟨hl, hd⟩ := feasible_of_loadTables (Header.litLen_le_of_covers hcov hall.lens) hload
  have hv := ho.opens.valid hall.coded hcov hall.lens hl hd
  have hbits : ({ h₀ with tokens := ts } : Header).bits <+: s.reader.bits := by
    rw [ho.bits]
    exact List.prefix_append_right_inj _ |>.mpr hall.bits
  rcases decodeHeader_run hs hc hv hbits (ho.sink.trans hall.sink).le_room with
    ⟨-, s₃, hok, hreads⟩ | ⟨-, s₃, herr⟩
  · rw [hrun] at hok
    cases hok
    exact ⟨_, rfl, hreads⟩
  · rw [hrun] at herr
    cases herr

end Decoding
end DeflateHeader
