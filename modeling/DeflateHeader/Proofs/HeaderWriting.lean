import DeflateHeader.Proofs.CodecBuilds
import DeflateHeader.Proofs.FittingFields
import DeflateHeader.Proofs.Header
import DeflateHeader.Proofs.TokenWriting

/-!
# Encoding a dynamic header

`WritesHeader h s s'` says that `s'` is `s` after the header `h` was encoded: its bits were
appended, and the codec holds its lengths and tables for them.

If `encodeHeader` succeeds, the buffer is the puff form of a valid header (`encodeHeader_ok`). From
the puff form of a valid header it writes exactly this header, unless there is no room for its bits
(`encodeHeader_run`). What the codec did before has no influence.

The opening is written field by field (`puts_writeOpening`), so it is written as a whole or the run fails
for lack of room (`Emits.writeOpening`). The encoder is divided into the part that builds the code-length
code (`prepareCode`), the fields and lengths, the tokens, and the part that builds the tables
(`loadTables`); `encodeHeader_cases` says what can end it before the first of them.
-/

namespace DeflateHeader

namespace Encoding

variable {α : Type} {s s' : Encoding} {a : α} {e : Error} {c : Codec}

theorem onCodec_ok {act : EStateM Error Codec α} {c : Codec} (h : act s.codec = .ok a c) :
    onCodec act s = .ok a { s with codec := c } :=
  focus_ok h

theorem onCodec_error {act : EStateM Error Codec α} {c : Codec} (h : act s.codec = .error e c) :
    onCodec act s = .error e { s with codec := c } :=
  focus_error h

theorem onWriter_ok {act : EStateM Error BitWriter α} {w : BitWriter}
    (h : act s.writer = .ok a w) : onWriter act s = .ok a { s with writer := w } :=
  focus_ok h

section Lengths

variable {table : CodeTable} {code : Lengths} {bytes : List UInt8} {m n : Nat} {p : LengthWriting}

theorem writeLengths_ok
    (h : LengthWriting.writeTokens table code n bytes ⟨s.writer, []⟩ = .ok m p) :
    onLengths (LengthWriting.writeLengths table code bytes n) s =
      .ok m ⟨s.codec.withLitLen p.lens, p.writer⟩ :=
  focus_ok h

theorem writeLengths_error
    (h : LengthWriting.writeTokens table code n bytes ⟨s.writer, []⟩ = .error e p) :
    onLengths (LengthWriting.writeLengths table code bytes n) s =
      .error e ⟨s.codec.withLitLen p.lens, p.writer⟩ :=
  focus_error h

theorem writeLengths_inv (h : onLengths (LengthWriting.writeLengths table code bytes n) s = .ok m s') :
    ∃ p, LengthWriting.writeTokens table code n bytes ⟨s.writer, []⟩ = .ok m p ∧
      s' = ⟨s.codec.withLitLen p.lens, p.writer⟩ :=
  ok_of_focus h

end Lengths

/-! ## Fields and lengths -/

/-- With the codec `c`, the action appends `bs` if they fit, and fails for lack of room otherwise. -/
def Emits (c : Codec) (bs : List Bool) (act : EStateM Error Encoding Unit) : Prop :=
  ∀ w : BitWriter, w.WellFormed →
    (bs.length ≤ w.room ∧ ∃ w', act ⟨c, w⟩ = .ok () ⟨c, w'⟩ ∧ w.Appends bs w') ∨
    (w.room < bs.length ∧ ∃ s', act ⟨c, w⟩ = .error .insufficientOutput s')

theorem Emits.of_puts {fields : List (List Bool)} {act : EStateM Error Encoding Unit}
    (h : ∀ w : BitWriter, w.WellFormed →
      Puts writer w fields (.ok ()) (fun s => s.codec = c) (act ⟨c, w⟩)) :
    Emits c fields.flatten act := by
  intro w hw
  rcases Nat.lt_or_ge w.room fields.flatten.length with hroom | hroom
  · obtain ⟨s', hrun, -⟩ := (h w hw).error_of_lt hroom
    exact .inr ⟨hroom, s', hrun⟩
  · obtain ⟨⟨_, w'⟩, hrun, ha, rfl⟩ := (h w hw).ok_of_le hroom
    exact .inl ⟨hroom, w', hrun, ha⟩

theorem puts_put {n : Nat} {w : BitWriter} (hw : w.WellFormed) (hn : n ≤ 32) (v : Nat) :
    Puts writer w [Bits.ofNat n v] (.ok ()) (fun s => s.codec = c)
      (onWriter (BitWriter.put n v) ⟨c, w⟩) :=
  (BitWriter.puts_put hw hn v).focus (fun _ => rfl) fun _ _ => rfl

/-- The lengths are written as the codec has them. -/
theorem puts_writeCodeLengths {symbols : List Nat} {sent : List UInt8} {w : BitWriter}
    (hw : w.WellFormed) (h : symbols.map (fun i => c.codeLength.lens[i]?) = sent.map some) :
    Puts writer w (sent.map fun len => Bits.ofNat 3 len.toNat) (.ok ()) (fun s => s.codec = c)
      (writeCodeLengths symbols ⟨c, w⟩) := by
  induction symbols generalizing w sent with
  | nil =>
    obtain rfl : sent = [] := List.map_eq_nil_iff.mp h.symm
    exact .of_ok rfl hw rfl rfl
  | cons symbol symbols ih =>
    cases sent with
    | nil => simp at h
    | cons len sent =>
      rw [List.map_cons, List.map_cons, List.cons.injEq] at h
      rw [writeCodeLengths, run_bind_ok run_get]
      simp only [h.1]
      refine (puts_put hw (by decide) len.toNat).bind ?_
      rintro ⟨_, w'⟩ rfl ha
      exact ih ha.wellFormed h.2

/-- The fields and the lengths of the code-length alphabet. -/
def writeOpening (fields : Nat × Nat × Nat) (sizes : AlphabetSizes) :
    EStateM Error Encoding Unit := do
  let (hlit, hdist, hclen) := fields
  onWriter (BitWriter.put 5 hlit)
  onWriter (BitWriter.put 5 hdist)
  onWriter (BitWriter.put 4 hclen)
  writeCodeLengths sizes.sentSymbols

/-- The opening of a header is written field by field. -/
theorem puts_writeOpening {h : Header} (ho : h.Opens) (hc : c.codeLength.lens = h.code)
    {w : BitWriter} (hw : w.WellFormed) :
    Puts writer w h.openingFields (.ok ()) (fun s => s.codec = c)
      (writeOpening (h.hlit, h.hdist, h.hclen) h.sizes ⟨c, w⟩) := by
  have hlens : h.sizes.sentSymbols.map (fun i => c.codeLength.lens[i]?) = h.sent.map some := by
    rw [ho.sentSymbols_eq, hc]
    exact map_lengthOf_sent ho.length_sent_le
  refine (puts_put hw (by decide) h.hlit).bind ?_
  rintro ⟨_, w₁⟩ rfl ha₁
  refine (puts_put ha₁.wellFormed (by decide) h.hdist).bind ?_
  rintro ⟨_, w₂⟩ rfl ha₂
  refine (puts_put ha₂.wellFormed (by decide) h.hclen).bind ?_
  rintro ⟨_, w₃⟩ rfl ha₃
  exact puts_writeCodeLengths ha₃.wellFormed hlens

theorem Emits.writeOpening {h : Header} (ho : h.Opens) (hc : c.codeLength.lens = h.code) :
    Emits c h.openingBits (writeOpening (h.hlit, h.hdist, h.hclen) h.sizes) := by
  rw [← h.flatten_openingFields]
  exact .of_puts fun w hw => puts_writeOpening ho hc hw

/-! ## The code-length code -/

theorem setCodeLengths_ok {pairs : List (Nat × UInt8)}
    (hsym : ∀ pair ∈ pairs, pair.1 < s.codec.codeLength.lens.length)
    (hlen : ∀ pair ∈ pairs, pair.2.toNat ≤ 7) :
    setCodeLengths pairs s =
      .ok () { s with codec := s.codec.withCode (setLengths s.codec.codeLength.lens pairs) } := by
  induction pairs generalizing s with
  | nil => rfl
  | cons pair pairs ih =>
    obtain ⟨symbol, len⟩ := pair
    have hlt : symbol < s.codec.codeLength.lens.length := hsym (symbol, len) (by simp)
    have hnot : ¬ 7 < len := by
      rw [UInt8.lt_iff_toNat_lt]
      exact Nat.not_lt.mpr (hlen (symbol, len) (by simp))
    rw [setCodeLengths, if_neg hnot]
    dsimp only
    rw [run_bind_ok (onCodec_ok (Codec.setCodeLength_ok len hlt)),
      ih (fun pair hp => by simpa [Codec.withCode] using hsym pair (by simp [hp]))
        (fun pair hp => hlen pair (by simp [hp]))]
    rfl

theorem le_of_setCodeLengths {pairs : List (Nat × UInt8)} (h : setCodeLengths pairs s = .ok () s') :
    ∀ pair ∈ pairs, pair.2.toNat ≤ 7 := by
  induction pairs generalizing s with
  | nil => simp
  | cons pair pairs ih =>
    obtain ⟨symbol, len⟩ := pair
    rw [setCodeLengths] at h
    by_cases hlt : 7 < len
    · rw [if_pos hlt] at h
      cases h
    · rw [if_neg hlt] at h
      obtain ⟨_, s₁, -, h⟩ := ok_of_bind h
      intro pair hp
      rcases List.mem_cons.mp hp with rfl | hp
      · rw [UInt8.lt_iff_toNat_lt] at hlt
        exact Nat.not_lt.mp hlt
      · exact ih h pair hp

theorem checkPadding_ok {sizes : AlphabetSizes} {packed : List UInt8}
    (h : sizes.codeLength % 2 = 1 → ∃ last, packed.getLast? = some last ∧ last &&& 0x0F = 0) :
    checkPadding sizes packed s = .ok () s := by
  rw [checkPadding]
  by_cases hodd : sizes.codeLength % 2 = 1
  · obtain ⟨last, hlast, hz⟩ := h hodd
    rw [if_pos hodd, hlast]
    simp [hz]
  · rw [if_neg hodd]
    rfl

theorem padding_of_checkPadding {sizes : AlphabetSizes} {packed : List UInt8}
    (h : checkPadding sizes packed s = .ok () s') :
    s' = s ∧ (sizes.codeLength % 2 = 1 → ∀ last, packed.getLast? = some last → last &&& 0x0F = 0) := by
  unfold checkPadding at h
  by_cases hodd : sizes.codeLength % 2 = 1
  · rw [if_pos hodd] at h
    cases hlast : packed.getLast? with
    | none =>
      rw [hlast] at h
      cases h
    | some last =>
      simp only [hlast] at h
      by_cases hz : last &&& 0x0F = 0
      · rw [if_neg (not_not.mpr hz)] at h
        cases h
        exact ⟨rfl, fun _ last' hl => by rw [← Option.some.inj hl]; exact hz⟩
      · rw [if_pos hz] at h
        cases h
  · rw [if_neg hodd] at h
    cases h
    exact ⟨rfl, fun h => absurd h hodd⟩

/-- The encoder up to the first bit, for a body with all packed lengths. -/
def prepareCode (sizes : AlphabetSizes) (packed : List UInt8) : EStateM Error Encoding Unit := do
  onCodec Codec.clearCodeLengths
  setCodeLengths (sizes.sentSymbols.zip (nibbles packed))
  checkPadding sizes packed
  discard <| onCodec (Codec.onCodeLength Alphabet.buildCodes)
  onCodec (Codec.remark (.sizes sizes))

/-- The encoder after the tokens. -/
def loadTables (sizes : AlphabetSizes) (size tokens : Nat) : EStateM Error Encoding Unit := do
  onCodec (Codec.splitLengths sizes.litLen)
  discard <| onCodec (Codec.onLitLen Alphabet.buildCodes)
  discard <| onCodec (Codec.onDistance Alphabet.buildCodes)
  let consumed := 3 + sizes.packedSize + tokens
  if consumed ≠ size then throw (.invalid (.trailingBytes consumed size))
  onCodec (Codec.remark (.encoded (← get).writer.bitCount))
  onCodec (Codec.finish .dynamicEncode)

variable {h : Header}

private theorem zip_take_length {β γ : Type} (xs : List β) (ys : List γ) :
    xs.zip (ys.take xs.length) = xs.zip ys := by
  induction xs generalizing ys with
  | nil => rfl
  | cons x xs ih =>
    cases ys with
    | nil => rfl
    | cons y ys => rw [List.length_cons, List.take_succ_cons, List.zip_cons_cons, ih, List.zip_cons_cons]

theorem prepareCode_run (ho : h.Opens) (hc : c.Ready) (w : BitWriter) :
    ∃ c', prepareCode h.sizes (pack h.sent) ⟨c, w⟩ = .ok () ⟨c', w⟩ ∧ c'.Ready ∧
      c'.codeLength.lens = h.code ∧ c'.codeLength.codes.Encodes h.code := by
  have hclear := Codec.clearCodeLengths_ok hc.length_codeLength
  have hzip : h.sizes.sentSymbols.zip (nibbles (pack h.sent)) = h.sizes.sentSymbols.zip h.sent := by
    rw [← zip_take_length, ho.length_sentSymbols, ho.length_sent, ho.nibbles_pack_sent]
  have hset : setCodeLengths (h.sizes.sentSymbols.zip (nibbles (pack h.sent)))
      ⟨c.withCode (List.replicate codeLengthCount 0), w⟩ = .ok () ⟨c.withCode h.code, w⟩ := by
    rw [hzip, setCodeLengths_ok, ← ho.setLengths_eq]
    · rfl
    · intro pair hp
      simpa [Codec.withCode] using h.sizes.lt_of_mem_sentSymbols _ (List.of_mem_zip hp).1
    · exact fun pair hp => ho.sent_le _ (List.of_mem_zip hp).2
  have hpad : checkPadding h.sizes (pack h.sent) ⟨c.withCode h.code, w⟩ =
      .ok () ⟨c.withCode h.code, w⟩ :=
    checkPadding_ok fun hodd => getLast?_pack (by rw [ho.length_sent]; exact hodd)
  have hready : (c.withCode h.code).Ready := hc.withCode (length_ofSent h.sent)
  have hlen : h.code.length ≤ symbolRange := by
    rw [Header.code, length_ofSent]
    decide
  obtain ⟨t, book, notes, hbuild, henc, hsize⟩ :=
    Codec.onCodeLength_buildCodes_ok (c := c.withCode h.code) ho.code_feasible hlen
  refine ⟨{ c.withCode h.code with
      codeLength := { (c.withCode h.code).codeLength with codes := t }
      book
      notes := notes ++ [.sizes h.sizes] }, ?_,
    ⟨⟨hready.codeLength.capacity, hsize.trans hready.codeLength.size⟩, hready.litLen,
      hready.distance, hready.length_codeLength⟩, rfl, henc⟩
  unfold prepareCode
  rw [run_bind_ok (onCodec_ok (s := ⟨c, w⟩) hclear), run_bind_ok hset,
    run_bind_ok hpad,
    run_bind_ok (run_discard_ok (onCodec_ok (s := ⟨c.withCode h.code, w⟩) hbuild))]
  rfl

/-- The code is only built from packed lengths of three bits that are feasible. -/
theorem prepareCode_inv {sizes : AlphabetSizes} {packed : List UInt8} (hc : s.codec.Ready)
    (hsizes : sizes.codeLength ≤ codeLengthCount) (hpacked : packed.length = sizes.packedSize)
    (hrun : prepareCode sizes packed s = .ok () s') :
    ∃ sent, sent.length = sizes.codeLength ∧ (∀ len ∈ sent, len.toNat ≤ 7) ∧
      packed = pack sent ∧ (Lengths.ofSent sent).Feasible := by
  have hclear := Codec.clearCodeLengths_ok hc.length_codeLength
  have hsymbols := AlphabetSizes.length_sentSymbols hsizes
  unfold prepareCode at hrun
  rw [run_bind_ok (onCodec_ok hclear)] at hrun
  obtain ⟨_, s₁, h₁, hrun₁⟩ := ok_of_bind hrun
  obtain ⟨_, s₂, h₂, hrun₂⟩ := ok_of_bind hrun₁
  obtain ⟨rfl, hpad⟩ := padding_of_checkPadding h₂
  have hsent : ((nibbles packed).take sizes.codeLength).length = sizes.codeLength := by
    rw [List.length_take, length_nibbles, hpacked, AlphabetSizes.packedSize]
    omega
  have hle : ∀ len ∈ (nibbles packed).take sizes.codeLength, len.toNat ≤ 7 := by
    intro len hlen
    have hsnd : (sizes.sentSymbols.zip ((nibbles packed).take sizes.codeLength)).map Prod.snd =
        (nibbles packed).take sizes.codeLength :=
      List.map_snd_zip (Nat.le_of_eq (hsent.trans hsymbols.symm))
    rw [← hsnd, ← hsymbols, zip_take_length] at hlen
    obtain ⟨pair, hp, rfl⟩ := List.mem_map.mp hlen
    exact le_of_setCodeLengths h₁ pair hp
  have hset := setCodeLengths_ok (s := { s with codec := s.codec.withCode (.replicate codeLengthCount 0) })
    (fun pair hp => by
      simpa [Codec.withCode] using sizes.lt_of_mem_sentSymbols _ (List.of_mem_zip hp).1)
    (le_of_setCodeLengths h₁)
  rw [h₁] at hset
  cases hset
  obtain ⟨_, s₃, h₃, -⟩ := ok_of_bind hrun₂
  obtain ⟨_, hbuild⟩ := ok_of_discard h₃
  obtain ⟨c₃, hbuild, -⟩ := ok_of_focus hbuild
  have hf : (setLengths (List.replicate codeLengthCount 0)
      (sizes.sentSymbols.zip (nibbles packed))).Feasible :=
    Codec.feasible_of_building_buildCodes (fun _ => rfl) hbuild
  have hpack := pack_nibbles hpacked hpad
  have hzip := zip_take_length sizes.sentSymbols (nibbles packed)
  rw [hsymbols] at hzip
  generalize (nibbles packed).take sizes.codeLength = sent at hsent hle hpack hzip
  rw [← hzip, AlphabetSizes.sentSymbols, ← hsent,
    setLengths_sent (Nat.le_trans (Nat.le_of_eq hsent) hsizes)] at hf
  exact ⟨sent, hsent, hle, hpack.symm, hf⟩

/-- What has passed the checks before the first bit is the opening of a header. -/
theorem opens_of_prepareCode {hlit hdist hclen : Nat} {packed : List UInt8} {w : BitWriter}
    (hl : hlit ≤ 29) (hd : hdist ≤ 29) (hcl : hclen ≤ 15) (hc : c.Ready)
    (hpacked : packed.length = AlphabetSizes.packedSize ⟨hlit + 257, hdist + 1, hclen + 4⟩)
    (hrun : prepareCode ⟨hlit + 257, hdist + 1, hclen + 4⟩ packed ⟨c, w⟩ = .ok () s') :
    ∃ (sent : List UInt8) (c' : Codec), (Header.mk hlit hdist hclen sent []).Opens ∧
      packed = pack sent ∧ s' = ⟨c', w⟩ ∧ c'.Ready ∧ c'.codeLength.lens = .ofSent sent ∧
      c'.codeLength.codes.Encodes (.ofSent sent) := by
  obtain ⟨sent, hsent, hle, rfl, hf⟩ := prepareCode_inv hc
    (by simp only [codeLengthCount]; omega) hpacked hrun
  have ho : (Header.mk hlit hdist hclen sent []).Opens := ⟨hl, hd, hcl, hsent, hle, hf⟩
  obtain ⟨c', hprep, hready, hlens, henc⟩ := prepareCode_run ho hc w
  refine ⟨sent, c', ho, rfl, ?_, hready, hlens, henc⟩
  injection hrun.symm.trans hprep

/-- The bytes of an opening, and the bytes after it. -/
theorem openingPuff_append_drop {hlit hdist hclen : UInt8} {sent body : List UInt8} {n : Nat}
    (h : body.take n = pack sent) :
    (Header.mk hlit.toNat hdist.toNat hclen.toNat sent []).openingPuff ++ body.drop n =
      hlit :: hdist :: hclen :: body := by
  rw [Header.openingPuff, ← h, List.append_assoc, List.take_append_drop, Header.fieldBytes]
  simp

/-! ## After the tokens -/

/-- The encoder from the lengths of both main alphabets to their tables. -/
def buildTables (sizes : AlphabetSizes) : EStateM Error Encoding Unit := do
  onCodec (Codec.splitLengths sizes.litLen)
  discard <| onCodec (Codec.onLitLen Alphabet.buildCodes)
  discard <| onCodec (Codec.onDistance Alphabet.buildCodes)

/-- The end of the encoder, which has used `consumed` bytes of a buffer of `size` bytes. -/
def finishHeader (consumed size : Nat) : EStateM Error Encoding Unit := do
  if consumed ≠ size then throw (.invalid (.trailingBytes consumed size))
  onCodec (Codec.remark (.encoded (← get).writer.bitCount))
  onCodec (Codec.finish .dynamicEncode)

theorem loadTables_eq (sizes : AlphabetSizes) (size tokens : Nat) :
    loadTables sizes size tokens = (do
      buildTables sizes
      finishHeader (3 + sizes.packedSize + tokens) size) := by
  simp only [loadTables, buildTables, finishHeader, bind_assoc]

theorem buildTables_run (sizes : AlphabetSizes) {lens : Lengths} (w : BitWriter)
    (hc : c.Ready) (hlen : lens.length ≤ slotSymbols) (hn : sizes.litLen ≤ lens.length)
    (hl : Lengths.Feasible (lens.take sizes.litLen))
    (hd : Lengths.Feasible (lens.drop sizes.litLen)) :
    ∃ c', buildTables sizes ⟨c.withLitLen lens, w⟩ = .ok () ⟨c', w⟩ ∧
      c'.codeLength = c.codeLength ∧ c'.litLen.lens = lens.take sizes.litLen ∧
      c'.distance.lens = lens.drop sizes.litLen ∧
      c'.litLen.codes.Encodes (lens.take sizes.litLen) ∧
      c'.distance.codes.Encodes (lens.drop sizes.litLen) ∧
      c'.litLen.codes.size = fixedLitLenCount ∧ c'.distance.codes.size = maxDistanceCount := by
  have hrange : slotSymbols ≤ symbolRange := by decide
  obtain ⟨n, m, c₁, c₂, h₁, h₂, hbuilt⟩ := Codec.buildCodes_ok hc hl hd
    (by rw [List.length_take]; omega) (by rw [List.length_drop]; omega)
  refine ⟨c₂, ?_, hbuilt⟩
  unfold buildTables
  rw [run_bind_ok (onCodec_ok (s := ⟨c.withLitLen lens, w⟩) (Codec.splitLengths_ok hn)),
    run_bind_ok (run_discard_ok (onCodec_ok (s := ⟨c.withLengths _ _, w⟩) h₁)),
    run_discard_ok (onCodec_ok (s := ⟨c₁, w⟩) h₂)]

/-- The tables are only built for feasible lengths. -/
theorem buildTables_inv {sizes : AlphabetSizes} {lens : Lengths} {w : BitWriter}
    (hn : sizes.litLen ≤ lens.length)
    (h : buildTables sizes ⟨c.withLitLen lens, w⟩ = .ok () s') :
    Lengths.Feasible (lens.take sizes.litLen) ∧ Lengths.Feasible (lens.drop sizes.litLen) := by
  unfold buildTables at h
  rw [run_bind_ok (onCodec_ok (s := ⟨c.withLitLen lens, w⟩) (Codec.splitLengths_ok hn))] at h
  obtain ⟨_, s₁, h₁, h₂⟩ := ok_of_bind h
  obtain ⟨_, h₁⟩ := ok_of_discard h₁
  obtain ⟨c₁, hb₁, rfl⟩ := ok_of_focus h₁
  obtain ⟨_, h₂⟩ := ok_of_discard h₂
  obtain ⟨c₂, hb₂, rfl⟩ := ok_of_focus h₂
  exact Codec.feasible_of_buildCodes hb₁ hb₂

/-- A buffer that was used up is accepted. -/
theorem finishHeader_ok (size : Nat) :
    finishHeader size size s = .ok ()
      { s with codec := { s.codec with
          notes := s.codec.notes ++ [.encoded s.writer.bitCount]
          loaded := some .dynamicEncode } } := by
  rw [finishHeader, if_neg (not_not.mpr rfl)]
  rfl

theorem finishHeader_error {consumed size : Nat} (hne : consumed ≠ size) :
    finishHeader consumed size s = .error (.invalid (.trailingBytes consumed size)) s := by
  rw [finishHeader, if_pos hne]
  rfl

theorem loadTables_run (sizes : AlphabetSizes) {lens : Lengths} (tokens : Nat) (w : BitWriter)
    (hc : c.Ready) (hlen : lens.length ≤ slotSymbols) (hn : sizes.litLen ≤ lens.length)
    (hl : Lengths.Feasible (lens.take sizes.litLen))
    (hd : Lengths.Feasible (lens.drop sizes.litLen)) :
    ∃ c', loadTables sizes (3 + sizes.packedSize + tokens) tokens ⟨c.withLitLen lens, w⟩ =
        .ok () ⟨c', w⟩ ∧
      c'.codeLength = c.codeLength ∧ c'.litLen.lens = lens.take sizes.litLen ∧
      c'.distance.lens = lens.drop sizes.litLen ∧ c'.loaded = some .dynamicEncode ∧
      c'.litLen.codes.Encodes (lens.take sizes.litLen) ∧
      c'.distance.codes.Encodes (lens.drop sizes.litLen) ∧
      c'.litLen.codes.size = fixedLitLenCount ∧ c'.distance.codes.size = maxDistanceCount := by
  obtain ⟨c₂, hbuild, hcl, hll, hdl, hle, hde, hls, hds⟩ := buildTables_run sizes w hc hlen hn hl hd
  refine ⟨{ c₂ with notes := c₂.notes ++ [.encoded w.bitCount], loaded := some .dynamicEncode }, ?_,
    hcl, hll, hdl, rfl, hle, hde, hls, hds⟩
  rw [loadTables_eq, run_bind_ok hbuild, finishHeader_ok]

/-- The tables are built before it shows that bytes are left over. -/
theorem loadTables_trailing (sizes : AlphabetSizes) {lens : Lengths} {size tokens : Nat}
    (w : BitWriter) (hc : c.Ready) (hlen : lens.length ≤ slotSymbols)
    (hn : sizes.litLen ≤ lens.length) (hl : Lengths.Feasible (lens.take sizes.litLen))
    (hd : Lengths.Feasible (lens.drop sizes.litLen)) (hne : 3 + sizes.packedSize + tokens ≠ size) :
    ∃ s', loadTables sizes size tokens ⟨c.withLitLen lens, w⟩ =
      .error (.invalid (.trailingBytes (3 + sizes.packedSize + tokens) size)) s' := by
  obtain ⟨c₂, hbuild, -⟩ := buildTables_run sizes w hc hlen hn hl hd
  exact ⟨_, by rw [loadTables_eq, run_bind_ok hbuild, finishHeader_error hne]⟩

/-- The tables are only loaded for feasible lengths and when no byte is left over. -/
theorem loadTables_inv {sizes : AlphabetSizes} {size tokens : Nat} {lens : Lengths} {w : BitWriter}
    (hn : sizes.litLen ≤ lens.length)
    (h : loadTables sizes size tokens ⟨c.withLitLen lens, w⟩ = .ok () s') :
    3 + sizes.packedSize + tokens = size ∧ Lengths.Feasible (lens.take sizes.litLen) ∧
      Lengths.Feasible (lens.drop sizes.litLen) := by
  rw [loadTables_eq] at h
  obtain ⟨_, s₁, hbuild, hend⟩ := ok_of_bind h
  refine ⟨?_, buildTables_inv hn hbuild⟩
  by_contra hne
  rw [finishHeader_error hne] at hend
  cases hend

/-! ## The whole header -/

/-- The encoder from the first bit on. -/
def writeBody (fields : Nat × Nat × Nat) (sizes : AlphabetSizes) (size : Nat)
    (bytes : List UInt8) : EStateM Error Encoding Unit := do
  writeOpening fields sizes
  let alphabet := (← get).codec.codeLength
  let tokens ← onLengths
    (LengthWriting.writeLengths alphabet.codes alphabet.lens bytes sizes.total)
  loadTables sizes size tokens

theorem encodeBody_short {fields : Nat × Nat × Nat} {sizes : AlphabetSizes} {size : Nat}
    {body : List UInt8} (h : body.length < sizes.packedSize) :
    encodeBody fields sizes size body s = .error .insufficientInput s := by
  rw [encodeBody, if_pos h]
  rfl

theorem encodeBody_eq {fields : Nat × Nat × Nat} {sizes : AlphabetSizes} {size : Nat}
    {body : List UInt8} (h : sizes.packedSize ≤ body.length) :
    encodeBody fields sizes size body = (do
      prepareCode sizes (body.take sizes.packedSize)
      writeBody fields sizes size (body.drop sizes.packedSize)) := by
  obtain ⟨hlit, hdist, hclen⟩ := fields
  rw [encodeBody, if_neg (Nat.not_lt.mpr h)]
  simp only [prepareCode, writeBody, writeOpening, loadTables, bind_assoc]

/-- `s'` is `s` after the header `h` was encoded. -/
structure WritesHeader (h : Header) (s s' : Encoding) : Prop where
  valid : h.Valid
  writer : s.writer.Appends h.bits s'.writer
  holds : s'.codec.Holds h
  loaded : s'.codec.loaded = some .dynamicEncode
  litLen_encodes : s'.codec.litLen.codes.Encodes h.litLen
  distance_encodes : s'.codec.distance.codes.Encodes h.distance
  litLen_size : s'.codec.litLen.codes.size = fixedLitLenCount
  distance_size : s'.codec.distance.codes.size = maxDistanceCount

/-- The encoder on a buffer that begins with the opening of a header. -/
theorem encodeHeader_opens (ho : h.Opens) {c : Codec} (hbegin : Codec.begin s.codec = .ok () c)
    (bytes : List UInt8) :
    encodeHeader (h.openingPuff ++ bytes) s = (do
      prepareCode h.sizes (pack h.sent)
      writeBody (h.hlit, h.hdist, h.hclen) h.sizes (h.openingPuff ++ bytes).length bytes)
        { s with codec := c } := by
  obtain ⟨hl, hd, hc⟩ := ho.toNat_fieldBytes
  have hbody : h.sizes.packedSize ≤ (pack h.sent ++ bytes).length := by
    rw [ho.packedSize_eq, List.length_append]
    exact Nat.le_add_right _ _
  have hpuff : h.openingPuff ++ bytes = UInt8.ofNat h.hlit :: UInt8.ofNat h.hdist ::
      UInt8.ofNat h.hclen :: (pack h.sent ++ bytes) := List.append_assoc ..
  rw [hpuff, encodeHeader, run_bind_ok (onCodec_ok hbegin)]
  simp only [hl, hd, hc, ho.ofFields_eq]
  rw [encodeBody_eq hbody, ho.packedSize_eq, List.take_left, List.drop_left]

/-- The encoder from the first bit on, for tokens that cover the lengths: it gets to the tables if there
is room for all bits, whatever bytes come after the tokens. -/
theorem writeBody_run {w : BitWriter} (ho : h.Opens) (hcov : Covers h.sizes.total h.tokens)
    (hcoded : ∀ t ∈ h.tokens, 0 < h.code.lengthOf t.symbol)
    (hexp : expandAll [] h.tokens = some h.lens) (hc : c.Ready)
    (hlens : c.codeLength.lens = h.code) (henc : c.codeLength.codes.Encodes h.code)
    (hw : w.WellFormed) (size : Nat) (rest : List UInt8) :
    (h.bits.length ≤ w.room ∧ ∃ w', w.Appends h.bits w' ∧
      writeBody (h.hlit, h.hdist, h.hclen) h.sizes size (h.tokens.map Token.toByte ++ rest) ⟨c, w⟩ =
        loadTables h.sizes size h.tokens.length ⟨c.withLitLen h.lens, w'⟩) ∨
    (w.room < h.bits.length ∧ ∃ s',
      writeBody (h.hlit, h.hdist, h.hclen) h.sizes size (h.tokens.map Token.toByte ++ rest) ⟨c, w⟩ =
        .error .insufficientOutput s') := by
  rw [writeBody, Header.bits, List.length_append]
  rcases Emits.writeOpening ho hlens w hw with ⟨hroom, w₁, hopening, hw₁⟩ | ⟨hroom, s', hopening⟩
  · have hrest := hw₁.room_eq
    rw [run_bind_ok hopening, run_bind_ok run_get, hlens]
    rcases LengthWriting.writeTokens_run (s := ⟨w₁, []⟩) henc
      (by rw [hc.codeLength.size]; decide) (by rw [Header.code, length_ofSent]; decide)
      ho.code_feasible rest hw₁.wellFormed hcov hcoded hexp with
      ⟨hroom', ⟨w₂, lens⟩, hp, hall⟩ | ⟨hroom', p, hp⟩
    · obtain rfl : lens = h.lens := Option.some.inj (hall.lens.symm.trans hexp)
      refine .inl ⟨by dsimp only at hroom'; omega, w₂, hw₁.trans hall.writer, ?_⟩
      rw [run_bind_ok (writeLengths_ok (s := ⟨c, w₁⟩) hp)]
    · exact .inr ⟨by dsimp only at hroom'; omega, _,
        run_bind_error (writeLengths_error (s := ⟨c, w₁⟩) hp)⟩
  · exact .inr ⟨by omega, s', run_bind_error hopening⟩

/-- What happens to the puff form of a valid header: it is encoded if there is room for its bits. -/
theorem encodeHeader_run (hs : s.writer.WellFormed) (hc : s.codec.Sized) (hv : h.Valid) :
    (h.bits.length ≤ s.writer.room ∧
      ∃ s', encodeHeader h.puff s = .ok () s' ∧ WritesHeader h s s') ∨
    (s.writer.room < h.bits.length ∧
      ∃ s', encodeHeader h.puff s = .error .insufficientOutput s') := by
  obtain ⟨c₀, hbegin, hready, -⟩ := Codec.begin_ok hc
  obtain ⟨c₁, hprepare, hready₁, hlens, henc⟩ := prepareCode_run hv.toOpens hready s.writer
  have hbody := writeBody_run hv.toOpens hv.covers hv.coded hv.expands hready₁ hlens henc hs
    h.puff.length []
  rw [List.append_nil] at hbody
  rw [Header.puff, encodeHeader_opens hv.toOpens hbegin, run_bind_ok hprepare, ← Header.puff]
  rcases hbody with ⟨hroom, w, hw, hrun⟩ | ⟨hroom, s', hrun⟩
  · obtain ⟨c₂, hload, hcl, hll, hdl, hloaded, hle, hde, hls, hds⟩ := loadTables_run
      h.sizes h.tokens.length w hready₁ hv.length_lens_le
      (Nat.le_trans (Nat.le_add_right _ _) hv.total_le_length_lens) hv.litLen_feasible
      hv.distance_feasible
    refine .inl ⟨hroom, ⟨c₂, w⟩, ?_, hv, hw, ⟨by rw [hcl, hlens], hll, hdl⟩, hloaded, hle, hde, hls,
      hds⟩
    rw [hrun, Header.length_puff, hv.length_sent]
    exact hload
  · exact .inr ⟨hroom, s', hrun⟩

/-- Before it looks at the packed lengths, the encoder fails for a missing byte or for the fields. Or else all
packed lengths are there, and the fields are in range. -/
theorem encodeHeader_cases (hc : c.Sized) (puff : List UInt8) : ∃ c₀ : Codec, c₀.Ready ∧
    ((∃ e, (e = .insufficientInput ∨
        ∃ hlit hdist hclen, AlphabetSizes.ofFields hlit hdist hclen = .error e) ∧
        ∀ w, encodeHeader puff ⟨c, w⟩ = .error e ⟨c₀, w⟩) ∨
      ∃ (hlit hdist hclen : UInt8) (body : List UInt8) (sizes : AlphabetSizes),
        puff = hlit :: hdist :: hclen :: body ∧
        hlit.toNat ≤ 29 ∧ hdist.toNat ≤ 29 ∧ hclen.toNat ≤ 15 ∧
        sizes = ⟨hlit.toNat + 257, hdist.toNat + 1, hclen.toNat + 4⟩ ∧
        sizes.packedSize ≤ body.length ∧
        ∀ w, encodeHeader puff ⟨c, w⟩ = (do
          prepareCode sizes (body.take sizes.packedSize)
          writeBody (hlit.toNat, hdist.toNat, hclen.toNat) sizes puff.length
            (body.drop sizes.packedSize)) ⟨c₀, w⟩) := by
  obtain ⟨c₀, hbegin, hready, -⟩ := Codec.begin_ok hc
  have hstart : ∀ w, onCodec Codec.begin ⟨c, w⟩ = .ok () ⟨c₀, w⟩ :=
    fun w => onCodec_ok (s := ⟨c, w⟩) hbegin
  refine ⟨c₀, hready, ?_⟩
  obtain _ | ⟨hlit, _ | ⟨hdist, _ | ⟨hclen, body⟩⟩⟩ := puff
  · exact .inl ⟨_, .inl rfl, fun w => run_bind_ok (hstart w)⟩
  · exact .inl ⟨_, .inl rfl, fun w => run_bind_ok (hstart w)⟩
  · exact .inl ⟨_, .inl rfl, fun w => run_bind_ok (hstart w)⟩
  simp only [encodeHeader, run_bind_ok (hstart _)]
  by_cases hfields : hlit.toNat ≤ 29 ∧ hdist.toNat ≤ 29 ∧ hclen.toNat ≤ 15
  · obtain ⟨hl, hd, hcl⟩ := hfields
    rw [AlphabetSizes.ofFields_ok hl hd hcl]
    dsimp only
    rcases Nat.lt_or_ge body.length
      (AlphabetSizes.packedSize ⟨hlit.toNat + 257, hdist.toNat + 1, hclen.toNat + 4⟩) with hlt | hge
    · exact .inl ⟨_, .inl rfl, fun w => encodeBody_short hlt⟩
    · rw [encodeBody_eq hge]
      exact .inr ⟨hlit, hdist, hclen, body, _, rfl, hl, hd, hcl, rfl, hge, fun w => rfl⟩
  · obtain ⟨detail, he⟩ := AlphabetSizes.ofFields_error hfields
    rw [he]
    exact .inl ⟨_, .inr ⟨_, _, _, he⟩, fun w => rfl⟩

/-- If the encoder gets to the first bit, the buffer begins with the opening of a header. -/
theorem encodeHeader_opening {puff : List UInt8} (hc : s.codec.Sized)
    (hrun : encodeHeader puff s = .ok () s') :
    ∃ (h : Header) (bytes : List UInt8) (c : Codec), h.Opens ∧ puff = h.openingPuff ++ bytes ∧
      c.Ready ∧ c.codeLength.lens = h.code ∧ c.codeLength.codes.Encodes h.code ∧
      writeBody (h.hlit, h.hdist, h.hclen) h.sizes puff.length bytes ⟨c, s.writer⟩ = .ok () s' := by
  obtain ⟨c₀, hready, ⟨e, -, hfail⟩ |
    ⟨hlit, hdist, hclen, body, sizes, rfl, hl, hd, hcl, rfl, hle, hfront⟩⟩ := encodeHeader_cases hc puff
  · injection (hfail s.writer).symm.trans hrun
  · obtain ⟨_, s₁, hprep, hwrite⟩ := ok_of_bind ((hfront s.writer).symm.trans hrun)
    obtain ⟨sent, c₁, ho, hpack, rfl, hready₁, hlens, henc⟩ :=
      opens_of_prepareCode hl hd hcl hready (List.length_take_of_le hle) hprep
    exact ⟨_, _, c₁, ho, (openingPuff_append_drop hpack).symm, hready₁, hlens, henc, hwrite⟩

/-- An encoder that succeeds was given the puff form of a valid header. -/
theorem encodeHeader_ok {puff : List UInt8} (hs : s.writer.WellFormed) (hc : s.codec.Sized)
    (hrun : encodeHeader puff s = .ok () s') : ∃ h, puff = h.puff ∧ WritesHeader h s s' := by
  obtain ⟨h₀, bytes, c₁, ho, rfl, hready₁, hlens, henc, hbody⟩ := encodeHeader_opening hc hrun
  unfold writeBody at hbody
  obtain ⟨_, s₂, h₂, hrest⟩ := ok_of_bind hbody
  obtain ⟨w₂, hw₂, rfl⟩ : ∃ w₂, w₂.WellFormed ∧ s₂ = ⟨c₁, w₂⟩ := by
    rcases Emits.writeOpening ho hlens s.writer hs with ⟨-, w₂, hw, ha⟩ | ⟨-, s'', herr⟩
    · exact ⟨w₂, ha.wellFormed, by injection h₂.symm.trans hw⟩
    · injection h₂.symm.trans herr
  rw [run_bind_ok run_get] at hrest
  obtain ⟨m, s₃, h₃, hload⟩ := ok_of_bind hrest
  obtain ⟨⟨w₃, lens⟩, hp, rfl⟩ := writeLengths_inv h₃
  dsimp only at hp
  rw [hlens] at hp
  obtain ⟨ts, rest, hcov, rfl, rfl, hall⟩ := LengthWriting.writeTokens_ok henc
    (by rw [hready₁.codeLength.size]; decide) (by rw [Header.code, length_ofSent]; decide)
    ho.code_feasible hw₂ hp
  obtain ⟨hsize, hl, hd⟩ := loadTables_inv (Header.litLen_le_of_covers hcov hall.lens) hload
  -- The tokens are all there is, so the buffer is the puff form of a header.
  obtain rfl : rest = [] := by
    rw [List.length_append, List.length_append, Header.length_openingPuff, List.length_map,
      ho.packedSize_eq, length_pack] at hsize
    exact List.length_eq_zero_iff.mp (by omega)
  rw [List.append_nil] at hrun ⊢
  have hv := ho.valid hall.coded hcov hall.lens hl hd
  rcases encodeHeader_run hs hc hv with ⟨-, s₄, hok, hwrites⟩ | ⟨-, s₄, herr⟩
  · obtain rfl : s₄ = s' := by injection hok.symm.trans hrun
    exact ⟨_, rfl, hwrites⟩
  · injection herr.symm.trans hrun

end Encoding
end DeflateHeader
