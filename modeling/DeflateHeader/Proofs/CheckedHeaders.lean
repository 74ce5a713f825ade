import DeflateHeader.Proofs.CheckedTokens
import DeflateHeader.Proofs.CoherentCodecs
import DeflateHeader.Proofs.HeaderFailures
import DeflateHeader.Proofs.Streams

/-!
# Headers with machine words

`decodeHeader` and `encodeHeader` in checked arithmetic, with each index into the two buffers and into
the order of the code-length alphabet computed and compared with its bound. They run like
`Decoding.decodeHeader` and `Encoding.encodeHeader`, from every state that a codec, a reader and a
writer can be brought into. Since those only fail with the errors of `DecodeFailure` and
`EncodeFailure`, no input makes an index go out of bounds, a difference negative or a number too large
for its word, nor a field be read beyond the bits that are cached.
-/

namespace DeflateHeader

namespace Checked

variable {σ : Type}

/-! ## Sizes -/

/-- Fails at the first field value that does not fit its width. -/
def checkFields : List (Nat × Nat) → EStateM Error σ Unit
  | [] => return ()
  | (value, width) :: rest => do
    let above ← shr 8 value width
    if above != 0 then throw (.invalid (.headerField value width))
    checkFields rest

/-- The sizes that three field values stand for. -/
def ofFields (hlit hdist hclen : Nat) : EStateM Error σ AlphabetSizes := do
  checkFields ([hlit, hdist, hclen].zip AlphabetSizes.fieldWidths)
  let litLen ← add 64 hlit 257
  let distance ← add 64 hdist 1
  let codeLength ← add 64 hclen 4
  if maxLitLenCount < litLen ∨ maxDistanceCount < distance ∨ codeLengthCount < codeLength then
    throw (.invalid (.alphabetSize litLen distance codeLength))
  return ⟨litLen, distance, codeLength⟩

theorem checkFields_run {fields : List (Nat × Nat)} (h : ∀ field ∈ fields, field.2 < 8) (s : σ) :
    checkFields fields s = match fields.find? fun (value, width) => value >>> width != 0 with
      | some (value, width) => .error (.invalid (.headerField value width)) s
      | none => .ok () s := by
  induction fields with
  | nil => rfl
  | cons field rest ih =>
    obtain ⟨value, width⟩ := field
    rw [checkFields, run_lift (shr_eq (h (value, width) List.mem_cons_self)), List.find?_cons]
    dsimp only
    cases value >>> width != 0 with
    | true => rfl
    | false => exact ih fun field hmem => h field (List.mem_cons_of_mem _ hmem)

theorem ofFields_eq {hlit hdist hclen : Nat} (hl : hlit < 2 ^ 8) (hd : hdist < 2 ^ 8)
    (hc : hclen < 2 ^ 8) (s : σ) :
    ofFields hlit hdist hclen s = match AlphabetSizes.ofFields hlit hdist hclen with
      | .ok sizes => .ok sizes s
      | .error e => .error e s := by
  have hfields : checkFields ([hlit, hdist, hclen].zip AlphabetSizes.fieldWidths) s =
      match AlphabetSizes.wideField? [hlit, hdist, hclen] with
      | some (value, width) => .error (.invalid (.headerField value width)) s
      | none => .ok () s :=
    checkFields_run (by simp [AlphabetSizes.fieldWidths]) s
  unfold ofFields AlphabetSizes.ofFields
  rw [run_bind, hfields]
  cases AlphabetSizes.wideField? [hlit, hdist, hclen] with
  | some wide => rfl
  | none =>
    dsimp only
    rw [run_lift (add_eq (by omega)), run_lift (add_eq (by omega)), run_lift (add_eq (by omega))]
    split <;> rfl

/-! ## Decoding -/

/-- Reads and consumes a field that is cached. -/
def field (width : Nat) : EStateM Error Decoding Nat := do
  let value ← Decoding.onReader (peek width)
  Decoding.onReader (drop width)
  return value

/-- Reads the three fields, writes their bytes and returns the sizes that they stand for. -/
def readSizes : EStateM Error Decoding AlphabetSizes := do
  Decoding.onReader (ensure 14)
  let hlit ← field 5
  let hdist ← field 5
  let hclen ← field 4
  Decoding.onSink (ByteSink.push (UInt8.ofNat hlit))
  Decoding.onSink (ByteSink.push (UInt8.ofNat hdist))
  Decoding.onSink (ByteSink.push (UInt8.ofNat hclen))
  ofFields hlit hdist hclen

/-- Writes the `i`th half byte. -/
def packHalf (i : Nat) (half : UInt8) : EStateM Error ByteSink Unit :=
  if i % 2 = 0 then do
    let high ← shl 8 half.toNat 4
    ByteSink.push (UInt8.ofNat high)
  else ByteSink.orLast half

/-- Reads the lengths of the given code-length symbols, from the `i`th on, and packs them into a
buffer of `size` bytes. -/
def readCodeLengths (size i : Nat) : List Nat → EStateM Error Decoding Unit
  | [] => return ()
  | symbol :: rest => do
    let value ← Decoding.onReader (take 3)
    Decoding.onCodec (Codec.setCodeLength symbol (UInt8.ofNat value))
    let slot ← add 64 3 (i / 2)
    let _ ← index size slot
    Decoding.onSink (packHalf i (UInt8.ofNat value))
    readCodeLengths size (i + 1) rest

/-- The decoder from the lengths of the code-length alphabet to its table. -/
def readCode (size : Nat) (sizes : AlphabetSizes) : EStateM Error Decoding Unit := do
  Decoding.onCodec Codec.clearCodeLengths
  let symbols ← front codeLengthOrder sizes.codeLength
  readCodeLengths size 0 symbols
  discard <| Decoding.onCodec (Codec.onCodeLength buildAlphabetLookup)

/-- Fails unless `n` bytes fit the given room. -/
def checkRoom (room n : Nat) : EStateM Error Decoding Unit :=
  if room < n then throw .insufficientOutput else return ()

/-- The decoder up to the tokens, with a buffer of `size` bytes. -/
def readOpening (size : Nat) : EStateM Error Decoding AlphabetSizes := do
  Decoding.onCodec Codec.begin
  checkRoom size 3
  let sizes ← readSizes
  Decoding.onCodec (Codec.remark (.sizes sizes))
  let room ← sub size 3
  checkRoom room sizes.packedSize
  readCode size sizes
  return sizes

/-- The decoder after the tokens; the puff form has `size` bytes. -/
def loadLookups (sizes : AlphabetSizes) (size : Nat) : EStateM Error Decoding Nat := do
  Decoding.onCodec (Codec.splitLengths sizes.litLen)
  let litLenBits ← Decoding.onCodec (Codec.onLitLen buildAlphabetLookup)
  let distanceBits ← Decoding.onCodec (Codec.onDistance buildAlphabetLookup)
  Decoding.onCodec (Codec.remark (.decoded size litLenBits distanceBits))
  Decoding.onCodec (Codec.finish .dynamicDecode)
  return size

/-- Replaces the lengths by at least `target` ones from the stream, and returns the number of
runs. -/
def readLengths (table : LookupTable) (codeLens : Lengths) (target : Nat) :
    EStateM Error LengthReading Nat := do
  modify fun s => { s with lens := [] }
  readTokens table codeLens 0 target

/-- Decodes a dynamic header and returns the size of its puff form. -/
def decodeHeader : EStateM Error Decoding Nat := do
  let room := (← get).sink.room
  let sizes ← readOpening room
  let start ← add 64 3 sizes.packedSize
  let _ ← sub room start
  let target ← add 64 sizes.litLen sizes.distance
  let alphabet := (← get).codec.codeLength
  let tokens ← Decoding.onLengths (readLengths alphabet.lookup alphabet.lens target)
  let size ← add 64 start tokens
  loadLookups sizes size

section Decoding

variable {s s' : Decoding}

theorem field_eq (n : Nat) : field n = Decoding.field n := by
  unfold field Decoding.field
  rw [peek_eq, drop_eq]

theorem returns_field {n : Nat} (h : n ≤ 32) : Returns (· < 2 ^ n) (Decoding.field n) := by
  refine returns_bind (S := (· < 2 ^ n)) (fun s v s' hrun => ?_) fun v hv =>
    returns_bind_of fun _ => returns_pure hv
  obtain ⟨r, hpeek, -⟩ := ok_of_focus hrun
  exact BitReader.returns_peek h _ _ _ hpeek

theorem readSizes_eq (hs : s.reader.Bounded) : readSizes s = Decoding.readSizes s := by
  unfold readSizes Decoding.readSizes
  simp only [field_eq]
  refine run_bind_congr (run_focus_congr (ensure_eq _ hs)) fun _ s₀ _ => ?_
  refine run_bind_same fun hlit s₁ h₁ => run_bind_same fun hdist s₂ h₂ =>
    run_bind_same fun hclen s₃ h₃ => ?_
  refine run_bind_same fun _ s₄ _ => run_bind_same fun _ s₅ _ => run_bind_same fun _ s₆ _ => ?_
  have hl : hlit < 2 ^ 5 := returns_field (by decide) _ _ _ h₁
  have hd : hdist < 2 ^ 5 := returns_field (by decide) _ _ _ h₂
  have hc : hclen < 2 ^ 4 := returns_field (by decide) _ _ _ h₃
  rw [ofFields_eq (by omega) (by omega) (by omega)]
  cases AlphabetSizes.ofFields hlit hdist hclen <;> rfl

theorem packHalf_eq (i : Nat) {half : UInt8} (h : half.toNat < 2 ^ 4) :
    packHalf i half = if i % 2 = 0 then ByteSink.push (half <<< 4) else ByteSink.orLast half := by
  have hlt : half.toNat <<< 4 < 2 ^ 8 := by
    rw [Nat.shiftLeft_eq]
    omega
  have hbyte : UInt8.ofNat (half.toNat <<< 4) = half <<< 4 := by
    apply UInt8.toNat_inj.mp
    rw [UInt8.toNat_ofNat', UInt8.toNat_shiftLeft]
    rfl
  rw [packHalf, shl_eq (by decide) hlt, ← hbyte]
  rfl

theorem readCodeLengths_eq {size i : Nat} (symbols : List Nat) (hs : s.reader.Bounded)
    (hi : i + symbols.length ≤ codeLengthCount) (hsize : 3 + (i + symbols.length + 1) / 2 ≤ size) :
    readCodeLengths size i symbols s = Decoding.readCodeLengths (i % 2 = 1) symbols s := by
  induction symbols generalizing i s with
  | nil => rfl
  | cons symbol rest ih =>
    simp only [List.length_cons, codeLengthCount] at hi hsize
    rw [readCodeLengths, Decoding.readCodeLengths]
    refine run_bind_congr (run_focus_congr (take_eq 3 hs)) fun value s₁ h₁ => ?_
    obtain ⟨r, htake, rfl⟩ := ok_of_focus h₁
    have hr := hs.of_moves (BitReader.take_inv hs.wellFormed (by decide) htake).2
    have hvalue : value < 2 ^ 3 := BitReader.returns_take (by decide) _ _ _ htake
    refine run_bind_same fun _ s₂ h₂ => ?_
    obtain ⟨c, -, rfl⟩ := ok_of_focus h₂
    rw [run_lift (add_eq (by omega)), run_lift (index_eq (by omega)),
      packHalf_eq i (by rw [UInt8.toNat_ofNat']; omega)]
    have hrest : ∀ s₃, s₃.reader = r → readCodeLengths size (i + 1) rest s₃ =
        Decoding.readCodeLengths (!decide (i % 2 = 1)) rest s₃ := by
      intro s₃ hr₃
      have hnext : (!decide (i % 2 = 1)) = decide ((i + 1) % 2 = 1) := by
        rw [← decide_not]
        exact decide_eq_decide.mpr (by omega)
      rw [hnext]
      exact ih (hr₃ ▸ hr) (by simp only [codeLengthCount]; omega) (by omega)
    by_cases heven : i % 2 = 0
    · have hodd : ¬ decide (i % 2 = 1) = true := by simp [heven]
      rw [if_pos heven, if_neg hodd]
      refine run_bind_same fun _ s₃ h₃ => hrest s₃ ?_
      obtain ⟨k, -, rfl⟩ := ok_of_focus h₃
      rfl
    · have hodd : decide (i % 2 = 1) = true := by simp; omega
      rw [if_neg heven, if_pos hodd]
      refine run_bind_same fun _ s₃ h₃ => hrest s₃ ?_
      obtain ⟨k, -, rfl⟩ := ok_of_focus h₃
      rfl

theorem readCode_eq {size : Nat} {sizes : AlphabetSizes} (hc : s.codec.Ready) (hs : s.reader.Bounded)
    (hcodes : sizes.codeLength ≤ codeLengthCount) (hroom : sizes.packedSize ≤ s.sink.room)
    (hsize : 3 + sizes.packedSize ≤ size) : readCode size sizes s = Decoding.readCode sizes s := by
  have hsymbols := AlphabetSizes.length_sentSymbols hcodes
  have hclear := Codec.clearCodeLengths_ok hc.length_codeLength
  unfold readCode Decoding.readCode
  rw [run_bind_ok (Decoding.onCodec_ok hclear), run_bind_ok (Decoding.onCodec_ok hclear),
    run_lift (front_eq (by rw [length_codeLengthOrder]; exact hcodes))]
  refine run_bind_congr (readCodeLengths_eq sizes.sentSymbols hs ?_ ?_) fun _ s₁ h₁ => ?_
  · rw [hsymbols, Nat.zero_add]
    exact hcodes
  · rw [hsymbols, Nat.zero_add]
    exact hsize
  obtain ⟨sent, r, k, -, -, rfl, -, -⟩ := Decoding.readCodeLengths_inv
    (s := { s with codec := s.codec.withCode (.replicate codeLengthCount 0) }) hs.wellFormed
    (by simpa [Codec.withCode] using sizes.lt_of_mem_sentSymbols) (by rw [hsymbols]; exact hroom) h₁
  refine run_discard_congr (run_focus_congr (building_lookup_eq (fun _ => rfl) ?_))
  simp [Codec.withCode, codeLengthCount, slotSymbols]

theorem checkRoom_eq (n : Nat) : checkRoom s.sink.room n s = Decoding.needRoom n s := by
  unfold checkRoom Decoding.needRoom
  rw [run_bind_ok run_get]

/-- The room that is left is counted from the size of the buffer. -/
theorem readOpening_eq (hs : s.reader.Bounded) (hc : s.codec.Sized) :
    readOpening s.sink.room s = Decoding.readOpening s := by
  obtain ⟨c₀, hbegin, hready, -⟩ := Codec.begin_ok hc
  rw [Decoding.readOpening_eq, readOpening, run_bind_ok (Decoding.onCodec_ok hbegin),
    run_bind_ok (Decoding.onCodec_ok hbegin)]
  refine run_bind_congr (checkRoom_eq (s := { s with codec := c₀ }) 3) fun _ s₁ h₁ => ?_
  obtain ⟨hroom, rfl⟩ := Decoding.room_of_needRoom h₁
  refine run_bind_congr (readSizes_eq hs) fun sizes s₂ h₂ => ?_
  obtain ⟨hlit, hdist, hclen, r, k, -, -, hcl, rfl, rfl, hm, -, hg⟩ :=
    Decoding.readSizes_inv (s := { s with codec := c₀ }) hs.wellFormed hroom h₂
  have hk := hg.room_eq
  rw [Header.length_fieldBytes] at hk
  dsimp only at hroom hk
  refine run_bind_same fun _ s₃ h₃ => ?_
  cases h₃
  rw [run_lift (sub_eq hroom), ← hk]
  refine run_bind_congr (checkRoom_eq (s := ⟨_, r, k⟩) _) fun _ s₄ h₄ => ?_
  obtain ⟨hpacked, rfl⟩ := Decoding.room_of_needRoom h₄
  dsimp only at hpacked
  refine run_bind_congr (readCode_eq (hready.with_notes _) (hs.of_moves hm) ?_ hpacked (by omega))
    fun _ s₅ _ => rfl
  simp only [codeLengthCount]
  omega

/-- Few enough lengths are split, and both tables built. -/
theorem loadLookups_eq (sizes : AlphabetSizes) (tokens : Nat)
    (h : s.codec.litLen.lens.length ≤ slotSymbols) :
    loadLookups sizes (3 + sizes.packedSize + tokens) s = Decoding.loadTables sizes tokens s := by
  unfold loadLookups Decoding.loadTables
  refine run_bind_same fun _ s₁ h₁ => ?_
  obtain ⟨c, hsplit, rfl⟩ := ok_of_focus h₁
  obtain rfl := Codec.splitLengths_inv hsplit
  refine run_bind_congr (run_focus_congr (building_lookup_eq (fun _ => rfl) ?_)) fun n s₂ h₂ => ?_
  · exact Nat.le_trans (List.take_sublist _ _).length_le h
  obtain ⟨c₂, hbuild, rfl⟩ := ok_of_focus h₂
  obtain ⟨t, notes, -, rfl⟩ := Codec.ok_of_building (fun _ => rfl) hbuild
  refine run_bind_congr (run_focus_congr (building_lookup_eq (fun _ => rfl) ?_)) fun m s₃ h₃ => rfl
  exact Nat.le_trans (List.drop_sublist _ _).length_le h

theorem readLengths_eq {table : LookupTable} {codeLens : Lengths} {target : Nat} {p : LengthReading}
    (ht : table.maxBits < 32) (hp : p.Bounded) (htarget : target < 2 ^ 63) :
    readLengths table codeLens target p = LengthReading.readLengths table codeLens target p := by
  have hid : (fun n => 0 + n) = (id : Nat → Nat) := funext Nat.zero_add
  unfold readLengths LengthReading.readLengths
  refine run_bind_same fun _ p₁ h₁ => ?_
  obtain ⟨-, rfl⟩ := EStateM.Result.ok.inj h₁
  rw [readTokens_eq (s := { p with lens := [] }) ht hp (by omega) (fun _ => by simpa using htarget), hid,
    id_map]

theorem decodeHeader_eq (hs : s.reader.Bounded) (hc : s.codec.Sized) :
    decodeHeader s = Decoding.decodeHeader s := by
  rw [Decoding.decodeHeader_eq, decodeHeader, run_bind_ok run_get]
  refine run_bind_congr (readOpening_eq hs hc) fun sizes s₁ h₁ => ?_
  obtain ⟨h, -, rfl, ho⟩ := Decoding.readOpening_ok hs.wellFormed hc h₁
  have hpacked := ho.opens.packedSize_eq
  have hsent := ho.opens.length_sent_le
  have hroom := ho.sink.le_room
  have htotal := ho.opens.total_le
  rw [length_pack] at hpacked
  rw [Header.length_openingPuff] at hroom
  simp only [AlphabetSizes.total, maxLitLenCount, maxDistanceCount, codeLengthCount] at htotal hsent
  have hbits : s₁.codec.codeLength.lookup.maxBits < 32 := by
    rw [ho.decodes.maxBits_eq]
    exact Nat.lt_of_le_of_lt ho.opens.maxLength_le (by decide)
  rw [run_lift (add_eq (by omega)), run_lift (sub_eq (by omega)), run_lift (add_eq (by omega)),
    run_bind_ok run_get, run_bind_ok run_get]
  refine run_bind_congr (run_focus_congr (readLengths_eq hbits (hs.of_moves ho.reader) (by omega)))
    fun m s₂ h₂ => ?_
  obtain ⟨⟨r, k, lens⟩, hp, rfl⟩ := Decoding.readLengths_inv h₂
  have hlens := LengthReading.length_le_of_readTokens hp
  rw [ho.lens_eq] at hp
  obtain ⟨ts, hcov, rfl, -⟩ :=
    LengthReading.readTokens_ok ho.decodes ho.opens.code_feasible ho.reader.wellFormed hp
  have hts := hcov.totalCount_bounds.2.2
  simp only [AlphabetSizes.total, List.length_nil] at hlens hts
  rw [run_lift (add_eq (by omega))]
  refine loadLookups_eq h.sizes ts.length ?_
  simp only [Codec.withLitLen, slotSymbols]
  omega

end Decoding

/-! ## Encoding -/

/-- The `i`th half byte of a byte string, from its byte. -/
def half (i : Nat) (byte : UInt8) : Option Nat :=
  if i % 2 = 0 then shr 8 byte.toNat 4 else some (byte.toNat &&& 0x0F)

/-- Sets the lengths of code-length symbols from the half bytes of `packed`, from the `i`th on. -/
def setCodeLengths (packed : List UInt8) (i : Nat) : List Nat → EStateM Error Encoding Unit
  | [] => return ()
  | symbol :: rest => do
    let byte ← packed[i / 2]?
    let len ← half i byte
    if 7 < len then throw (.invalid (.headerField len 3))
    Encoding.onCodec (Codec.setCodeLength symbol (UInt8.ofNat len))
    setCodeLengths packed (i + 1) rest

/-- Fails if the half byte after an odd number of lengths is not zero. -/
def checkPadding (sizes : AlphabetSizes) (packed : List UInt8) : EStateM Error Encoding Unit :=
  if sizes.codeLength % 2 = 1 then do
    let last ← sub sizes.packedSize 1
    let byte ← packed[last]?
    let pad := byte &&& 0x0F
    if pad ≠ 0 then throw (.invalid (.paddingNibble pad.toNat))
  else return ()

/-- The encoder up to the first bit. -/
def prepareCode (sizes : AlphabetSizes) (packed : List UInt8) : EStateM Error Encoding Unit := do
  Encoding.onCodec Codec.clearCodeLengths
  let symbols ← front codeLengthOrder sizes.codeLength
  setCodeLengths packed 0 symbols
  checkPadding sizes packed
  discard <| Encoding.onCodec (Codec.onCodeLength buildAlphabetCodes)
  Encoding.onCodec (Codec.remark (.sizes sizes))

/-- Writes the lengths of code-length symbols. -/
def writeCodeLengths : List Nat → EStateM Error Encoding Unit
  | [] => return ()
  | symbol :: rest => do
    let len ← (← get).codec.codeLength.lens[symbol]?
    Encoding.onWriter (put 3 len.toNat)
    writeCodeLengths rest

/-- Writes the fields and the lengths of the code-length alphabet. -/
def writeOpening (hlit hdist hclen : Nat) (sizes : AlphabetSizes) : EStateM Error Encoding Unit := do
  Encoding.onWriter (put 5 hlit)
  Encoding.onWriter (put 5 hdist)
  Encoding.onWriter (put 4 hclen)
  let symbols ← front codeLengthOrder sizes.codeLength
  writeCodeLengths symbols

/-- Replaces the lengths by at least `target` ones from the tokens, and returns the number of
runs. -/
def writeLengths (table : CodeTable) (codeLens : Lengths) (tokens : List UInt8) (target : Nat) :
    EStateM Error LengthWriting Nat := do
  modify fun s => { s with lens := [] }
  writeTokens table codeLens 0 target tokens

/-- The encoder after the tokens, of a buffer of `size` bytes of which `consumed` are used. -/
def loadCodes (sizes : AlphabetSizes) (size consumed : Nat) : EStateM Error Encoding Unit := do
  Encoding.onCodec (Codec.splitLengths sizes.litLen)
  discard <| Encoding.onCodec (Codec.onLitLen buildAlphabetCodes)
  discard <| Encoding.onCodec (Codec.onDistance buildAlphabetCodes)
  if consumed ≠ size then throw (.invalid (.trailingBytes consumed size))
  let bits ← bitCount (← get).writer
  Encoding.onCodec (Codec.remark (.encoded bits))
  Encoding.onCodec (Codec.finish .dynamicEncode)

/-- The encoder from the first bit on. -/
def writeBody (hlit hdist hclen : Nat) (sizes : AlphabetSizes) (puff : List UInt8) :
    EStateM Error Encoding Unit := do
  writeOpening hlit hdist hclen sizes
  let start ← add 64 3 sizes.packedSize
  let tokens ← tail puff start
  let target ← add 64 sizes.litLen sizes.distance
  let alphabet := (← get).codec.codeLength
  let count ← Encoding.onLengths (writeLengths alphabet.codes alphabet.lens tokens target)
  let consumed ← add 64 start count
  loadCodes sizes puff.length consumed

/-- The encoder from the sizes on, where `body` is what comes after the three bytes of the fields. -/
def encodeBody (hlit hdist hclen : Nat) (sizes : AlphabetSizes) (puff body : List UInt8) :
    EStateM Error Encoding Unit :=
  match front body sizes.packedSize with
  | none => throw .insufficientInput
  | some packed => do
    prepareCode sizes packed
    writeBody hlit hdist hclen sizes puff

/-- Encodes the header that a puff buffer describes. -/
def encodeHeader (puff : List UInt8) : EStateM Error Encoding Unit := do
  Encoding.onCodec Codec.begin
  match puff with
  | hlit :: hdist :: hclen :: body =>
    let sizes ← ofFields hlit.toNat hdist.toNat hclen.toNat
    encodeBody hlit.toNat hdist.toNat hclen.toNat sizes puff body
  | _ => throw .insufficientInput

section Encoding

variable {s s' : Encoding}

theorem half_eq (i : Nat) (byte : UInt8) :
    half i byte = some (if i % 2 = 0 then byte >>> 4 else byte &&& 0x0F).toNat := by
  unfold half
  split
  · rw [shr_eq (by decide), UInt8.toNat_shiftRight]
    rfl
  · rw [UInt8.toNat_and]
    rfl

theorem getElem?_nibbles (packed : List UInt8) (i : Nat) :
    (Encoding.nibbles packed)[i]? =
      packed[i / 2]?.map fun (byte : UInt8) => if i % 2 = 0 then byte >>> 4 else byte &&& 0x0F := by
  induction packed generalizing i with
  | nil => rfl
  | cons byte packed ih =>
    rw [nibbles_cons]
    match i with
    | 0 => rfl
    | 1 => rfl
    | i + 2 =>
      have hdiv : (i + 2) / 2 = i / 2 + 1 := by omega
      have hmod : (i + 2) % 2 = i % 2 := by omega
      rw [List.getElem?_cons_succ, List.getElem?_cons_succ, ih, hdiv, hmod, List.getElem?_cons_succ]

theorem setCodeLengths_eq {packed : List UInt8} {i : Nat} (symbols : List Nat)
    (h : i + symbols.length ≤ (Encoding.nibbles packed).length) :
    setCodeLengths packed i symbols s =
      Encoding.setCodeLengths (symbols.zip ((Encoding.nibbles packed).drop i)) s := by
  induction symbols generalizing i s with
  | nil => rfl
  | cons symbol rest ih =>
    rw [List.length_cons] at h
    have hi : i < (Encoding.nibbles packed).length := by omega
    have hnibble := getElem?_nibbles packed i
    rw [List.getElem?_eq_getElem hi] at hnibble
    obtain ⟨byte, hbyte, heq⟩ := Option.map_eq_some_iff.mp hnibble.symm
    rw [setCodeLengths, List.drop_eq_getElem_cons hi, List.zip_cons_cons, Encoding.setCodeLengths,
      run_lift hbyte, run_lift (half_eq i byte), heq, UInt8.ofNat_toNat]
    generalize (Encoding.nibbles packed)[i] = len
    have hseven : 7 < len.toNat ↔ 7 < len := by
      rw [UInt8.lt_iff_toNat_lt]
      rfl
    by_cases hlt : 7 < len
    · rw [if_pos (hseven.mpr hlt), if_pos hlt]
      rfl
    · rw [if_neg (mt hseven.mp hlt), if_neg hlt]
      exact run_bind_same fun _ s₁ _ => ih (by omega)

theorem checkPadding_eq {sizes : AlphabetSizes} {packed : List UInt8}
    (h : packed.length = sizes.packedSize) :
    checkPadding sizes packed s = Encoding.checkPadding sizes packed s := by
  unfold checkPadding Encoding.checkPadding
  by_cases hodd : sizes.codeLength % 2 = 1
  · have hpos : 1 ≤ sizes.packedSize := by
      rw [AlphabetSizes.packedSize]
      omega
    rw [if_pos hodd, if_pos hodd, run_lift (sub_eq hpos), ← h, ← List.getLast?_eq_getElem?]
    cases packed.getLast? <;> rfl
  · rw [if_neg hodd, if_neg hodd]

theorem prepareCode_eq {sizes : AlphabetSizes} {packed : List UInt8} (hc : s.codec.Ready)
    (hcodes : sizes.codeLength ≤ codeLengthCount) (hpacked : packed.length = sizes.packedSize) :
    prepareCode sizes packed s = Encoding.prepareCode sizes packed s := by
  have hsymbols := AlphabetSizes.length_sentSymbols hcodes
  have hclear := Codec.clearCodeLengths_ok hc.length_codeLength
  have hsym : ∀ pair ∈ sizes.sentSymbols.zip (Encoding.nibbles packed),
      pair.1 < (s.codec.withCode (.replicate codeLengthCount 0)).codeLength.lens.length := by
    intro pair hp
    simpa [Codec.withCode] using sizes.lt_of_mem_sentSymbols _ (List.of_mem_zip hp).1
  have hhalves : 0 + sizes.sentSymbols.length ≤ (Encoding.nibbles packed).length := by
    rw [hsymbols, length_nibbles, hpacked, AlphabetSizes.packedSize]
    omega
  unfold prepareCode Encoding.prepareCode
  rw [run_bind_ok (Encoding.onCodec_ok hclear), run_bind_ok (Encoding.onCodec_ok hclear),
    run_lift (front_eq (by rw [length_codeLengthOrder]; exact hcodes))]
  refine run_bind_congr (setCodeLengths_eq sizes.sentSymbols hhalves) fun _ s₁ h₁ => ?_
  have hset := Encoding.setCodeLengths_ok
    (s := { s with codec := s.codec.withCode (.replicate codeLengthCount 0) }) hsym
    (Encoding.le_of_setCodeLengths h₁)
  rw [h₁] at hset
  cases hset
  refine run_bind_congr (checkPadding_eq hpacked) fun _ s₂ h₂ => ?_
  obtain ⟨rfl, -⟩ := Encoding.padding_of_checkPadding h₂
  refine run_bind_congr (run_discard_congr (run_focus_congr (building_codes_eq (fun _ => rfl) ?_)))
    fun _ _ _ => rfl
  simp [Codec.withCode, codeLengthCount, slotSymbols]

theorem writeCodeLengths_eq (symbols : List Nat) (hw : s.writer.Spare (32 * symbols.length)) :
    writeCodeLengths symbols s = Encoding.writeCodeLengths symbols s := by
  induction symbols generalizing s with
  | nil => rfl
  | cons symbol rest ih =>
    have hw : s.writer.Spare (32 * rest.length + 32) := hw
    rw [writeCodeLengths, Encoding.writeCodeLengths, run_bind_ok run_get, run_bind_ok run_get]
    cases s.codec.codeLength.lens[symbol]? with
    | none => rfl
    | some len =>
      rw [run_lift rfl]
      refine run_bind_congr (run_focus_congr (put_eq _ _ (hw.mono (Nat.zero_le _)))) fun _ s₁ h₁ => ?_
      obtain ⟨w, hput, rfl⟩ := ok_of_focus h₁
      exact ih (hw.put hput)

/-- Three fields and up to 19 lengths. -/
theorem writeOpening_eq (hlit hdist hclen : Nat) {sizes : AlphabetSizes}
    (hcodes : sizes.codeLength ≤ codeLengthCount) (hw : s.writer.Spare 704) :
    writeOpening hlit hdist hclen sizes s = Encoding.writeOpening (hlit, hdist, hclen) sizes s := by
  have hsymbols := AlphabetSizes.length_sentSymbols hcodes
  have hspare : ∀ {w : BitWriter} {n : Nat}, w.Spare n → w.Spare 0 := fun h => h.mono (Nat.zero_le _)
  unfold writeOpening Encoding.writeOpening
  refine run_bind_congr (run_focus_congr (put_eq _ _ (hspare hw))) fun _ s₁ h₁ => ?_
  obtain ⟨w₁, hput₁, rfl⟩ := ok_of_focus h₁
  have hw₁ : w₁.Spare 672 := BitWriter.Spare.put hw hput₁
  refine run_bind_congr (run_focus_congr (put_eq _ _ (hspare hw₁))) fun _ s₂ h₂ => ?_
  obtain ⟨w₂, hput₂, rfl⟩ := ok_of_focus h₂
  have hw₂ : w₂.Spare 640 := BitWriter.Spare.put hw₁ hput₂
  refine run_bind_congr (run_focus_congr (put_eq _ _ (hspare hw₂))) fun _ s₃ h₃ => ?_
  obtain ⟨w₃, hput₃, rfl⟩ := ok_of_focus h₃
  have hw₃ : w₃.Spare 608 := BitWriter.Spare.put hw₂ hput₃
  rw [run_lift (front_eq (by rw [length_codeLengthOrder]; exact hcodes))]
  refine writeCodeLengths_eq sizes.sentSymbols (hw₃.mono ?_)
  simp only [codeLengthCount] at hcodes
  omega

/-- The opening of a header takes up to 71 bits. -/
theorem spare_of_writeOpening {h : Header} {c : Codec} {w : BitWriter} {n : Nat} (ho : h.Opens)
    (hlens : c.codeLength.lens = h.code) (hw : w.Spare (n + 71))
    (hrun : Encoding.writeOpening (h.hlit, h.hdist, h.hclen) h.sizes ⟨c, w⟩ = .ok () s') :
    ∃ w', s' = ⟨c, w'⟩ ∧ w'.Spare n := by
  obtain ⟨-, w', hok, ha⟩ | ⟨-, s₁, herr⟩ := Encoding.Emits.writeOpening ho hlens w hw.wellFormed
  · obtain ⟨-, rfl⟩ := EStateM.Result.ok.inj (hrun.symm.trans hok)
    refine ⟨w', rfl, BitWriter.Spare.of_appends (hw.mono ?_) ha⟩
    have hsent := ho.length_sent_le
    simp only [codeLengthCount] at hsent
    rw [h.length_openingBits]
    omega
  · rw [hrun] at herr
    cases herr

/-- Few enough lengths are split, and both tables built. -/
theorem loadCodes_eq (sizes : AlphabetSizes) (size tokens : Nat)
    (h : s.codec.litLen.lens.length ≤ slotSymbols) (hw : s.writer.Spare 0) :
    loadCodes sizes size (3 + sizes.packedSize + tokens) s =
      Encoding.loadTables sizes size tokens s := by
  unfold loadCodes Encoding.loadTables
  refine run_bind_same fun _ s₁ h₁ => ?_
  obtain ⟨c, hsplit, rfl⟩ := ok_of_focus h₁
  obtain rfl := Codec.splitLengths_inv hsplit
  refine run_bind_congr (run_discard_congr (run_focus_congr (building_codes_eq (fun _ => rfl) ?_)))
    fun _ s₂ h₂ => ?_
  · exact Nat.le_trans (List.take_sublist _ _).length_le h
  obtain ⟨n, h₂⟩ := ok_of_discard h₂
  obtain ⟨c₂, hbuild, rfl⟩ := ok_of_focus h₂
  obtain ⟨t, notes, -, rfl⟩ := Codec.ok_of_building (fun _ => rfl) hbuild
  refine run_bind_congr (run_discard_congr (run_focus_congr (building_codes_eq (fun _ => rfl) ?_)))
    fun _ s₃ h₃ => ?_
  · exact Nat.le_trans (List.drop_sublist _ _).length_le h
  obtain ⟨m, h₃⟩ := ok_of_discard h₃
  obtain ⟨c₃, -, rfl⟩ := ok_of_focus h₃
  by_cases hsize : 3 + sizes.packedSize + tokens = size
  · rw [if_neg (not_not.mpr hsize), if_neg (not_not.mpr hsize)]
    dsimp only
    rw [run_bind_ok run_get, run_bind_ok run_get, run_lift (bitCount_eq hw.bitCount_lt)]
  · rw [if_pos hsize, if_pos hsize]
    rfl

theorem writeLengths_eq {table : CodeTable} {codeLens : Lengths} {tokens : List UInt8} {target : Nat}
    {p : LengthWriting} (hw : p.writer.Spare (64 * target)) (htarget : target < 2 ^ 63) :
    writeLengths table codeLens tokens target p =
      LengthWriting.writeLengths table codeLens tokens target p := by
  have hid : (fun n => 0 + n) = (id : Nat → Nat) := funext Nat.zero_add
  unfold writeLengths LengthWriting.writeLengths
  refine run_bind_same fun _ p₁ h₁ => ?_
  obtain ⟨-, rfl⟩ := EStateM.Result.ok.inj h₁
  rw [writeTokens_eq (s := { p with lens := [] }) tokens hw (by omega)
    (fun _ => by simpa using htarget), hid, id_map]

/-- From the first bit on, for the opening of a header; the writer needs to count 32 bits for each of
the 22 fields of the opening and 64 for each of the tokens. -/
theorem writeBody_eq {h : Header} {c : Codec} {w : BitWriter} {puff : List UInt8} (ho : h.Opens)
    (hw : w.Spare (2 ^ 16)) (hc : c.Ready) (hlens : c.codeLength.lens = h.code)
    (henc : c.codeLength.codes.Encodes h.code) (hpuff : 3 + h.sizes.packedSize ≤ puff.length) :
    writeBody h.hlit h.hdist h.hclen h.sizes puff ⟨c, w⟩ =
      Encoding.writeBody (h.hlit, h.hdist, h.hclen) h.sizes puff.length
        (puff.drop (3 + h.sizes.packedSize)) ⟨c, w⟩ := by
  have hsent := ho.length_sent_le
  have hpacked := ho.packedSize_eq
  have htotal := ho.total_le
  rw [length_pack] at hpacked
  have hsize : 19 ≤ c.codeLength.codes.size := by rw [hc.codeLength.size]; decide
  have hcode : 19 ≤ h.code.length := by rw [Header.code, length_ofSent]; decide
  have hcodes : h.sizes.codeLength ≤ codeLengthCount := by
    have := ho.hclen_le
    simp only [Header.sizes, codeLengthCount]
    omega
  simp only [AlphabetSizes.total, maxLitLenCount, maxDistanceCount, codeLengthCount] at htotal hsent
  unfold writeBody Encoding.writeBody
  refine run_bind_congr (writeOpening_eq _ _ _ hcodes (hw.mono (by decide))) fun _ s₁ h₁ => ?_
  obtain ⟨w₁, rfl, hw₁⟩ := spare_of_writeOpening ho hlens (n := 64 * h.sizes.total)
    (hw.mono (by rw [AlphabetSizes.total]; omega)) h₁
  rw [run_lift (add_eq (by omega)), run_lift (tail_eq hpuff), run_lift (add_eq (by omega)),
    run_bind_ok run_get, run_bind_ok run_get]
  refine run_bind_congr (run_focus_congr (writeLengths_eq hw₁ (by omega))) fun m s₂ h₂ => ?_
  obtain ⟨⟨w₂, lens⟩, hp, rfl⟩ := Encoding.writeLengths_inv h₂
  have hlen := LengthWriting.length_le_of_writeTokens hp
  have hw₂ : w₂.Spare 0 := spare_of_writeTokens (by rw [Nat.zero_add]; exact hw₁) hp
  rw [hlens] at hp
  obtain ⟨ts, rest, hcov, -, rfl, -⟩ :=
    LengthWriting.writeTokens_ok henc hsize hcode ho.code_feasible hw₁.wellFormed hp
  have hts := hcov.totalCount_bounds.2.2
  simp only [AlphabetSizes.total, List.length_nil] at hlen hts
  rw [run_lift (add_eq (by omega))]
  refine loadCodes_eq h.sizes puff.length ts.length ?_ hw₂
  simp only [Codec.withLitLen, slotSymbols]
  omega

/-- For fields in range; what is prepared without a failure is the opening of a header. -/
theorem encodeBody_eq {hlit hdist hclen : UInt8} {c : Codec} {w : BitWriter} (body : List UInt8)
    (hl : hlit.toNat ≤ 29) (hd : hdist.toNat ≤ 29) (hcl : hclen.toNat ≤ 15) (hc : c.Ready)
    (hw : w.Spare (2 ^ 16)) :
    encodeBody hlit.toNat hdist.toNat hclen.toNat
        ⟨hlit.toNat + 257, hdist.toNat + 1, hclen.toNat + 4⟩ (hlit :: hdist :: hclen :: body) body
        ⟨c, w⟩ =
      Encoding.encodeBody (hlit.toNat, hdist.toNat, hclen.toNat)
        ⟨hlit.toNat + 257, hdist.toNat + 1, hclen.toNat + 4⟩ (hlit :: hdist :: hclen :: body).length body
        ⟨c, w⟩ := by
  by_cases hbody : AlphabetSizes.packedSize ⟨hlit.toNat + 257, hdist.toNat + 1, hclen.toNat + 4⟩
      ≤ body.length
  · have hpacked := List.length_take_of_le hbody
    have hdrop : ∀ n, body.drop n = (hlit :: hdist :: hclen :: body).drop (3 + n) := fun n => by
      rw [Nat.add_comm]
      rfl
    rw [encodeBody, front_eq hbody, Encoding.encodeBody_eq hbody, hdrop]
    refine run_bind_congr (prepareCode_eq hc (by simp only [codeLengthCount]; omega) hpacked)
      fun _ s₁ h₁ => ?_
    obtain ⟨sent, c₁, ho, -, rfl, hready, hlens, henc⟩ :=
      Encoding.opens_of_prepareCode hl hd hcl hc hpacked h₁
    refine writeBody_eq (h := ⟨hlit.toNat, hdist.toNat, hclen.toNat, sent, []⟩) ho hw hready hlens
      henc ?_
    simp only [Header.sizes, List.length_cons]
    omega
  · rw [Encoding.encodeBody_short (Nat.lt_of_not_le hbody), encodeBody, front, if_neg hbody]
    rfl

theorem encodeHeader_eq (puff : List UInt8) (hw : s.writer.Spare (2 ^ 16)) (hc : s.codec.Sized) :
    encodeHeader puff s = Encoding.encodeHeader puff s := by
  obtain ⟨c₀, hbegin, hready, -⟩ := Codec.begin_ok hc
  unfold encodeHeader Encoding.encodeHeader
  rw [run_bind_ok (Encoding.onCodec_ok hbegin), run_bind_ok (Encoding.onCodec_ok hbegin)]
  obtain _ | ⟨hlit, _ | ⟨hdist, _ | ⟨hclen, body⟩⟩⟩ := puff
  · rfl
  · rfl
  · rfl
  have hsizes := ofFields_eq (s := (⟨c₀, s.writer⟩ : Encoding)) hlit.toNat_lt hdist.toNat_lt
    hclen.toNat_lt
  dsimp only
  by_cases hfields : hlit.toNat ≤ 29 ∧ hdist.toNat ≤ 29 ∧ hclen.toNat ≤ 15
  · obtain ⟨hl, hd, hcl⟩ := hfields
    rw [AlphabetSizes.ofFields_ok hl hd hcl] at hsizes ⊢
    rw [run_bind_ok hsizes]
    exact encodeBody_eq body hl hd hcl hready hw
  · obtain ⟨detail, he⟩ := AlphabetSizes.ofFields_error hfields
    rw [he] at hsizes ⊢
    rw [run_bind_error hsizes]
    rfl

end Encoding

/-! ## Every input -/

/-- Whatever codec, stream, puff buffer, sink and output buffer there are, decoding and encoding a
header in checked arithmetic is doing so exactly, so that no operation of `Checked` lacks a result.
If they fail, they do so with one of the listed errors, none of which is a fault. The sizes of the
stream and of what is written already are such that a word can count their bits. -/
theorem safe_of_reachable {c : Codec} (hc : c.Reachable) :
    (∀ (bytes : List UInt8) (r : BitReader) (sink : ByteSink),
      bytes.length < 2 ^ 60 → BitReader.Reachable bytes r →
      decodeHeader ⟨c, r, sink⟩ = Decoding.decodeHeader ⟨c, r, sink⟩ ∧
      FailsOnly (DecodeFailure (sink.room < maxPuffSize)) Decoding.decodeHeader ⟨c, r, sink⟩) ∧
    (∀ (buffer : List UInt8) (w : BitWriter) (puff : List UInt8),
      w.written.size < 2 ^ 60 → BitWriter.Reachable buffer w →
      encodeHeader puff ⟨c, w⟩ = Encoding.encodeHeader puff ⟨c, w⟩ ∧
      FailsOnly (EncodeFailure (w.room < maxHeaderBits - 3)) (Encoding.encodeHeader puff) ⟨c, w⟩) := by
  constructor
  · intro bytes r sink hsize hr
    exact ⟨decodeHeader_eq (hr.bounded hsize) hc.sized,
      Decoding.failsOnly_decodeHeader hr.wellFormed hc.sized⟩
  · intro buffer w puff hsize hw
    have hheld := hw.wellFormed.held_lt
    have hspare : w.Spare (2 ^ 16) := by
      refine ⟨hw.wellFormed, ?_⟩
      rw [BitWriter.bitCount]
      omega
    exact ⟨encodeHeader_eq puff hspare hc.sized,
      Encoding.failsOnly_encodeHeader puff hw.wellFormed hc.sized⟩

/-- The plain header, from its stream into the longest puff form, and from its puff form into 16
bytes. -/
theorem safe_plainStream : ∃ r : BitReader, BitReader.Reachable Codec.plainStream r ∧
    decodeHeader ⟨.new, r, .ofBuffer (.replicate maxPuffSize 0)⟩ =
      Decoding.decodeHeader ⟨.new, r, .ofBuffer (.replicate maxPuffSize 0)⟩ ∧
    FailsOnly (DecodeFailure False) Decoding.decodeHeader
      ⟨.new, r, .ofBuffer (.replicate maxPuffSize 0)⟩ ∧
    encodeHeader Header.plain.puff ⟨.new, .ofBuffer (.replicate 16 0)⟩ =
      Encoding.encodeHeader Header.plain.puff ⟨.new, .ofBuffer (.replicate 16 0)⟩ ∧
    FailsOnly (EncodeFailure True) (Encoding.encodeHeader Header.plain.puff)
      ⟨.new, .ofBuffer (.replicate 16 0)⟩ := by
  have hr : BitReader.Reachable Codec.plainStream _ := .drop 3 (.ensure 3 .start)
  obtain ⟨hdecode, hencode⟩ := safe_of_reachable .new
  obtain ⟨hdecoded, hdecoding⟩ :=
    hdecode Codec.plainStream _ (.ofBuffer (.replicate maxPuffSize 0)) (by decide) hr
  obtain ⟨hencoded, hencoding⟩ :=
    hencode (.replicate 16 0) (.ofBuffer (.replicate 16 0)) Header.plain.puff (by decide) .start
  refine ⟨_, hr, hdecoded, fun e s' h => (hdecoding e s' h).mono ?_, hencoded,
    fun e s' h => (hencoding e s' h).mono fun _ => trivial⟩
  simp [ByteSink.room, ByteSink.ofBuffer]

end Checked
end DeflateHeader
