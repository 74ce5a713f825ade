import DeflateHeader.Proofs.HeaderFailures
import DeflateHeader.Proofs.HistoryIndependence

/-!
# A full buffer only cuts off

What the encoder writes, and how it ends, is a matter of the puff buffer alone. It composes a sequence of
fields and an outcome (`Encoding.Composes`), whatever the codec was used for and wherever the writer stands.
A buffer with room for all fields gets them, and the run ends with that outcome; any other gets the fields
before the first one that does not fit, and lacks room, even if the run would have failed for another
reason further on (`encodeHeader_truncates`).

`Composes` has one case for each way to end. Nothing is composed as long as a check of the opening can fail.
From there on all fields are those of the longest header that the bytes begin with, in which every token has
a code and none lacks a length to repeat (`Header.Begins`).

The steps before the first bit and those after the last one are `Silent`: they neither change the writer nor
look at it.
-/

namespace DeflateHeader

open Bits

/-! ## Tokens -/

/-- The reason for which no token is written from a byte, after the lengths `lens`, however much room there
is. -/
def Token.refusal? (code lens : Lengths) (byte : UInt8) : Option InvalidInput :=
  match Token.ofByte? byte with
  | none => some (.invalidToken byte.toNat)
  | some t =>
    if code.lengthOf t.symbol = 0 then some (.unusedSymbol t.symbol)
    else if t.value? lens = none then some .repeatWithoutPrevious
    else none

/-- The tokens `ts` that are taken from some bytes as long as lengths are missing, after the lengths `lens`,
and their number or the error after them. -/
inductive Takes (code : Lengths) (missing : Nat) (lens : Lengths) (ts : List Token) :
    List UInt8 → Except Error Nat → Prop
  | covered {lens' : Lengths} (hcoded : ∀ t ∈ ts, 0 < code.lengthOf t.symbol)
      (hexp : expandAll lens ts = some lens') (hcov : Covers missing ts) (rest : List UInt8) :
      Takes code missing lens ts (ts.map Token.toByte ++ rest) (.ok ts.length)
  | endOfBytes {lens' : Lengths} (hcoded : ∀ t ∈ ts, 0 < code.lengthOf t.symbol)
      (hexp : expandAll lens ts = some lens') (hlt : totalCount ts < missing) :
      Takes code missing lens ts (ts.map Token.toByte) (.error .insufficientInput)
  | refused {lens' : Lengths} {byte : UInt8} {detail : InvalidInput}
      (hcoded : ∀ t ∈ ts, 0 < code.lengthOf t.symbol) (hexp : expandAll lens ts = some lens')
      (hlt : totalCount ts < missing) (h : Token.refusal? code lens' byte = some detail)
      (rest : List UInt8) :
      Takes code missing lens ts (ts.map Token.toByte ++ byte :: rest) (.error (.invalid detail))

/-- A token before those that are taken. -/
theorem Takes.cons {code lens : Lengths} {missing : Nat} {t : Token} {ts : List Token}
    {bytes : List UInt8} {r : Except Error Nat} {value : UInt8} (hpos : 0 < code.lengthOf t.symbol)
    (hvalue : t.value? lens = some value)
    (h : Takes code (missing + 1 - t.count) (lens ++ List.replicate t.count value) ts bytes r) :
    Takes code (missing + 1) lens (t :: ts) (t.toByte :: bytes) ((· + 1) <$> r) := by
  have hmore : ∀ {lens'}, expandAll (lens ++ List.replicate t.count value) ts = some lens' →
      expandAll lens (t :: ts) = some lens' := (expandAll_cons_of_some hvalue).trans
  have hshort : totalCount ts < missing + 1 - t.count → totalCount (t :: ts) < missing + 1 := by
    rw [totalCount_cons]
    omega
  cases h with
  | covered hcoded hexp hcov rest =>
    exact .covered (List.forall_mem_cons.mpr ⟨hpos, hcoded⟩) (hmore hexp) hcov rest
  | endOfBytes hcoded hexp hlt =>
    exact .endOfBytes (List.forall_mem_cons.mpr ⟨hpos, hcoded⟩) (hmore hexp) (hshort hlt)
  | refused hcoded hexp hlt h rest =>
    exact .refused (List.forall_mem_cons.mpr ⟨hpos, hcoded⟩) (hmore hexp) (hshort hlt) h rest

namespace Token

variable {code lens : Lengths} {byte : UInt8} {t : Token}

theorem refusal?_toByte (code lens : Lengths) (t : Token) :
    refusal? code lens t.toByte =
      if code.lengthOf t.symbol = 0 then some (.unusedSymbol t.symbol)
      else if t.value? lens = none then some .repeatWithoutPrevious else none := by
  rw [refusal?, ofByte?_toByte]

theorem refusal?_eq_none (h : refusal? code lens byte = none) : ∃ (t : Token) (value : UInt8),
    byte = t.toByte ∧ 0 < code.lengthOf t.symbol ∧ t.value? lens = some value := by
  cases hb : ofByte? byte with
  | none =>
    rw [refusal?, hb] at h
    cases h
  | some t =>
    obtain rfl := ofByte?_eq_some_iff.mp hb
    rw [refusal?_toByte] at h
    split_ifs at h with hz hnone
    obtain ⟨value, hvalue⟩ := Option.ne_none_iff_exists'.mp hnone
    exact ⟨t, value, rfl, Nat.pos_of_ne_zero hz, hvalue⟩

end Token

namespace LengthWriting

variable {table : CodeTable} {code lens : Lengths} {s : LengthWriting} {byte : UInt8}

section Table

variable (he : table.Encodes code) (hsize : 19 ≤ table.size) (hlen : 19 ≤ code.length)
  (hf : code.Feasible)

include he hsize hlen hf

/-- A byte is refused before anything is written. -/
theorem writeToken_of_refusal? {detail : InvalidInput} (hs : s.writer.WellFormed)
    (h : Token.refusal? code s.lens byte = some detail) :
    writeToken table code byte s = .error (.invalid detail) s := by
  have hrun := writeToken_run he hsize hlen hf hs byte
  generalize writeToken table code byte s = result at hrun
  have hcoded : ∀ {t : Token}, byte = t.toByte → 0 < code.lengthOf t.symbol →
      t.value? s.lens = none ∧ detail = .repeatWithoutPrevious := by
    rintro t rfl hpos
    rw [Token.refusal?_toByte, if_neg (Nat.ne_of_gt hpos)] at h
    split_ifs at h with hnone
    exact ⟨hnone, (Option.some.inj h).symm⟩
  cases hrun with
  | token hbyte hpos hvalue hw =>
    rw [(hcoded hbyte hpos).1] at hvalue
    cases hvalue
  | invalidToken hlt =>
    rw [Token.refusal?, Token.ofByte?_eq_none_iff.mpr hlt] at h
    cases h
    rfl
  | unusedSymbol hbyte hz =>
    obtain rfl := hbyte
    rw [Token.refusal?_toByte, if_pos hz] at h
    cases h
    rfl
  | noPrevious hbyte hpos hnone => rw [(hcoded hbyte hpos).2]
  | noRoom hbyte hpos hroom hvalue => exact absurd (hcoded hbyte hpos).1 hvalue
  | noRoomExtra hbyte hpos hroom hw hvalue => exact absurd (hcoded hbyte hpos).1 hvalue

/-- A token that is not refused is written as far as there is room: its code, then its extra bits. -/
theorem puts_writeToken {t : Token} {value : UInt8} (hs : s.writer.WellFormed)
    (hcoded : 0 < code.lengthOf t.symbol) (hvalue : t.value? s.lens = some value) :
    Puts writer s.writer (t.fields code) (.ok t)
      (fun s' => s'.lens = s.lens ++ List.replicate t.count value)
      (writeToken table code t.toByte s) := by
  have hrun := writeToken_run he hsize hlen hf hs t.toByte
  generalize writeToken table code t.toByte s = result at hrun
  have hfields := t.flatten_fields code
  cases hrun with
  | token hbyte hpos hvalue' hw =>
    obtain rfl := Token.toByte_inj hbyte
    obtain rfl := Option.some.inj (hvalue'.symm.trans hvalue)
    have hroom := hw.room_eq
    refine ⟨?_, fun _ => rfl, fun hlt => absurd hlt (by rw [hfields]; omega), ?_⟩
    · rw [fitting_of_le (by rw [hfields]; omega), hfields]
      exact hw
    · rintro _ _ ⟨⟩
      rfl
  | invalidToken h =>
    have := t.toNat_toByte_le
    omega
  | unusedSymbol hbyte hz =>
    obtain rfl := Token.toByte_inj hbyte
    omega
  | noPrevious hbyte hpos hnone =>
    obtain rfl := Token.toByte_inj hbyte
    rw [hnone] at hvalue
    cases hvalue
  | noRoom hbyte hpos hroom =>
    obtain rfl := Token.toByte_inj hbyte
    refine ⟨?_, fun hle => absurd hle ?_, fun _ => rfl, by simp⟩
    · rw [Token.fields, fitting, Lengths.length_codeBits, if_neg (Nat.not_le.mpr hroom)]
      exact .refl hs
    · rw [hfields, Token.length_bits]
      omega
  | noRoomExtra hbyte hpos hroom hw =>
    obtain rfl := Token.toByte_inj hbyte
    have hleft := hw.room_eq
    rw [Lengths.length_codeBits] at hleft
    rw [Token.length_bits] at hroom
    refine ⟨?_, fun hle => absurd hle ?_, fun _ => rfl, by simp⟩
    · rw [Token.fields, fitting, Lengths.length_codeBits, if_pos (by omega), fitting,
        Bits.length_ofNat, if_neg (by omega), List.flatten_singleton]
      exact hw
    · rw [hfields, Token.length_bits]
      omega

/-- By induction on the bytes: the tokens that are written, and what comes after them, depend on the bytes
and not on the writer. -/
theorem puts_writeTokens (missing : Nat) (bytes : List UInt8) (lens : Lengths) :
    ∃ (ts : List Token) (r : Except Error Nat), Takes code missing lens ts bytes r ∧
      ∀ w : BitWriter, w.WellFormed →
        Puts writer w (tokenFields code ts) r (fun s' => expandAll lens ts = some s'.lens)
          (writeTokens table code missing bytes ⟨w, lens⟩) := by
  induction bytes generalizing missing lens with
  | nil =>
    cases missing with
    | zero =>
      exact ⟨[], _, .covered (by simp) rfl (covers_zero.mpr rfl) [],
        fun w hw => .of_ok rfl hw rfl rfl⟩
    | succ missing =>
      exact ⟨[], _, .endOfBytes (by simp) rfl (Nat.succ_pos _), fun w hw => .of_error rfl hw rfl⟩
  | cons byte bytes ih =>
    cases missing with
    | zero =>
      exact ⟨[], _, .covered (by simp) rfl (covers_zero.mpr rfl) (byte :: bytes),
        fun w hw => .of_ok rfl hw rfl rfl⟩
    | succ missing =>
      cases hrefusal : Token.refusal? code lens byte with
      | some detail =>
        refine ⟨[], _, .refused (by simp) rfl (Nat.succ_pos _) hrefusal bytes, fun w hw => ?_⟩
        have hfail := writeToken_of_refusal? he hsize hlen hf (s := ⟨w, lens⟩) hw hrefusal
        rw [writeTokens]
        exact .bind_error (Q := fun _ => True) (.of_error hfail hw rfl)
      | none =>
        obtain ⟨t, value, rfl, hcoded, hvalue⟩ := Token.refusal?_eq_none hrefusal
        obtain ⟨ts, r, htakes, hputs⟩ :=
          ih (missing + 1 - t.count) (lens ++ List.replicate t.count value)
        refine ⟨t :: ts, (· + 1) <$> r, htakes.cons hcoded hvalue, fun w hw => ?_⟩
        rw [writeTokens, expandAll_cons_of_some hvalue]
        refine (puts_writeToken he hsize hlen hf (s := ⟨w, lens⟩) hw hcoded hvalue).bind ?_
        rintro ⟨w', _⟩ rfl ha
        exact (hputs w' ha.wellFormed).bind_pure

end Table
end LengthWriting

/-! ## Headers as far as they go -/

namespace Header

variable {h : Header}

/-- The stream form of a header, field by field. -/
def fields (h : Header) : List (List Bool) := h.openingFields ++ tokenFields h.code h.tokens

/-- A header with any number of its tokens: it opens right, every token has a code, and none lacks a length
to repeat. -/
structure Begins (h : Header) : Prop extends h.Opens where
  coded : ∀ t ∈ h.tokens, 0 < h.code.lengthOf t.symbol
  expands : expandAll [] h.tokens = some h.lens

theorem lens_eq_of_expandAll {lens : Lengths} (hexp : expandAll [] h.tokens = some lens) :
    h.lens = lens := by
  rw [Header.lens, hexp]
  rfl

theorem Opens.begins {ts : List Token} {lens : Lengths} (ho : h.Opens)
    (hcoded : ∀ t ∈ ts, 0 < h.code.lengthOf t.symbol) (hexp : expandAll [] ts = some lens) :
    ({ h with tokens := ts } : Header).Begins where
  hlit_le := ho.hlit_le
  hdist_le := ho.hdist_le
  hclen_le := ho.hclen_le
  length_sent := ho.length_sent
  sent_le := ho.sent_le
  code_feasible := ho.code_feasible
  coded := hcoded
  expands := hexp.trans (congrArg some (lens_eq_of_expandAll (h := { h with tokens := ts }) hexp).symm)

theorem Begins.length_lens_le (hb : h.Begins) (hcov : Covers h.sizes.total h.tokens) :
    h.lens.length ≤ slotSymbols := by
  have hlen := length_expandAll hb.expands
  have hbounds := hcov.totalCount_bounds
  have htotal := hb.total_le
  simp only [List.length_nil, maxLitLenCount, maxDistanceCount, slotSymbols] at *
  omega

end Header

/-! ## Steps without a bit -/

namespace Encoding

variable {α β : Type}

/-- An action on the codec alone: it does the same with every writer, and leaves it alone. -/
def Silent (act : EStateM Error Encoding α) : Prop :=
  ∀ c, (∃ a c', ∀ w, act ⟨c, w⟩ = .ok a ⟨c', w⟩) ∨ ∃ e c', ∀ w, act ⟨c, w⟩ = .error e ⟨c', w⟩

theorem silent_pure (a : α) : Silent (pure a) := fun c => .inl ⟨a, c, fun _ => rfl⟩

theorem silent_throw (e : Error) : Silent (throw e : EStateM Error Encoding α) :=
  fun c => .inr ⟨e, c, fun _ => rfl⟩

theorem silent_onCodec (act : EStateM Error Codec α) : Silent (onCodec act) := by
  intro c
  cases hact : act c with
  | ok a c' => exact .inl ⟨a, c', fun w => onCodec_ok (s := ⟨c, w⟩) hact⟩
  | error e c' => exact .inr ⟨e, c', fun w => onCodec_error (s := ⟨c, w⟩) hact⟩

theorem silent_bind {x : EStateM Error Encoding α} {f : α → EStateM Error Encoding β}
    (hx : Silent x) (hf : ∀ a, Silent (f a)) : Silent (x >>= f) := by
  intro c
  rcases hx c with ⟨a, c', h⟩ | ⟨e, c', h⟩
  · rcases hf a c' with ⟨b, c'', h'⟩ | ⟨e, c'', h'⟩
    · exact .inl ⟨b, c'', fun w => (run_bind_ok (h w)).trans (h' w)⟩
    · exact .inr ⟨e, c'', fun w => (run_bind_ok (h w)).trans (h' w)⟩
  · exact .inr ⟨e, c', fun w => run_bind_error (h w)⟩

theorem silent_discard {x : EStateM Error Encoding α} (hx : Silent x) : Silent (discard x) := by
  intro c
  rcases hx c with ⟨a, c', h⟩ | ⟨e, c', h⟩
  · exact .inl ⟨⟨⟩, c', fun w => run_discard_ok (h w)⟩
  · exact .inr ⟨e, c', fun w => run_discard_error (h w)⟩

theorem silent_setCodeLengths (pairs : List (Nat × UInt8)) : Silent (setCodeLengths pairs) := by
  induction pairs with
  | nil => exact silent_pure ()
  | cons pair pairs ih =>
    obtain ⟨symbol, len⟩ := pair
    rw [setCodeLengths]
    split
    · exact silent_throw _
    · exact silent_bind (silent_onCodec _) fun _ => ih

theorem silent_checkPadding (sizes : AlphabetSizes) (packed : List UInt8) :
    Silent (checkPadding sizes packed) := by
  unfold checkPadding
  split
  · split
    · exact silent_throw _
    · dsimp only
      split
      · exact silent_throw _
      · exact silent_pure ()
  · exact silent_pure ()

theorem silent_prepareCode (sizes : AlphabetSizes) (packed : List UInt8) :
    Silent (prepareCode sizes packed) :=
  silent_bind (silent_onCodec _) fun _ => silent_bind (silent_setCodeLengths _) fun _ =>
    silent_bind (silent_checkPadding _ _) fun _ =>
      silent_bind (silent_discard (silent_onCodec _)) fun _ => silent_onCodec _

theorem silent_buildTables (sizes : AlphabetSizes) : Silent (buildTables sizes) :=
  silent_bind (silent_onCodec _) fun _ => silent_bind (silent_discard (silent_onCodec _)) fun _ =>
    silent_discard (silent_onCodec _)

/-! ## The whole header -/

/-- The errors of a puff buffer that does not begin with the opening of a header. -/
inductive OpeningFailure : Error → Prop
  | input : OpeningFailure .insufficientInput
  | headerField (value width : Nat) : OpeningFailure (.invalid (.headerField value width))
  | alphabetSize (litLen distance codes : Nat) :
      OpeningFailure (.invalid (.alphabetSize litLen distance codes))
  | paddingNibble (nibble : Nat) : OpeningFailure (.invalid (.paddingNibble nibble))
  | oversubscribed (length count : Nat) : OpeningFailure (.invalid (.oversubscribed length count))

/-- What the encoder makes of a puff buffer: the fields that it writes, one after the other, and the outcome.
It writes nothing unless the buffer begins with the opening of a header. -/
inductive Composes : List UInt8 → List (List Bool) → Except Error Unit → Prop
  | refused {puff : List UInt8} {e : Error}
      (hnone : ∀ (h : Header) bytes, h.Opens → puff ≠ h.openingPuff ++ bytes) (he : OpeningFailure e) :
      Composes puff [] (.error e)
  | endOfBytes {h : Header} (hb : h.Begins) (hlt : totalCount h.tokens < h.sizes.total) :
      Composes h.puff h.fields (.error .insufficientInput)
  | token {h : Header} {byte : UInt8} {detail : InvalidInput} (hb : h.Begins)
      (hlt : totalCount h.tokens < h.sizes.total) (hbyte : Token.refusal? h.code h.lens byte = some detail)
      (rest : List UInt8) : Composes (h.puff ++ byte :: rest) h.fields (.error (.invalid detail))
  | oversubscribed {h : Header} (hb : h.Begins) (hcov : Covers h.sizes.total h.tokens)
      (hf : ¬ (h.litLen.Feasible ∧ h.distance.Feasible)) (length count : Nat) (rest : List UInt8) :
      Composes (h.puff ++ rest) h.fields (.error (.invalid (.oversubscribed length count)))
  | trailingBytes {h : Header} {rest : List UInt8} (hv : h.Valid) (hne : rest ≠ []) :
      Composes (h.puff ++ rest) h.fields
        (.error (.invalid (.trailingBytes h.puff.length (h.puff ++ rest).length)))
  | header {h : Header} (hv : h.Valid) : Composes h.puff h.fields (.ok ())

/-- Without the opening of a header the encoder fails before the first bit. -/
theorem encodeHeader_refused {c : Codec} {puff : List UInt8} (hc : c.Sized)
    (hnone : ∀ (h : Header) bytes, h.Opens → puff ≠ h.openingPuff ++ bytes) :
    ∃ e, OpeningFailure e ∧ ∀ w, ∃ c', encodeHeader puff ⟨c, w⟩ = .error e ⟨c', w⟩ := by
  obtain ⟨c₀, hready, ⟨e, he, hfail⟩ |
    ⟨hlit, hdist, hclen, body, sizes, rfl, hl, hd, hcl, rfl, hle, hfront⟩⟩ := encodeHeader_cases hc puff
  · refine ⟨e, ?_, fun w => ⟨c₀, hfail w⟩⟩
    rcases he with rfl | ⟨_, _, _, he⟩
    · exact .input
    · exact AlphabetSizes.failure_of_ofFields .headerField .alphabetSize he
  · have hpacked := List.length_take_of_le hle
    rcases silent_prepareCode ⟨hlit.toNat + 257, hdist.toNat + 1, hclen.toNat + 4⟩ (body.take _) c₀ with
      ⟨_, c₁, hprep⟩ | ⟨e, c₁, hprep⟩
    · obtain ⟨sent, -, ho, hpack, -⟩ :=
        opens_of_prepareCode hl hd hcl hready hpacked (hprep (.ofBuffer []))
      exact absurd (openingPuff_append_drop hpack).symm (hnone _ _ ho)
    · refine ⟨e, ?_, fun w => ⟨c₁, (hfront w).trans (run_bind_error (hprep w))⟩⟩
      exact failsOnly_prepareCode .headerField .paddingNibble .oversubscribed
        (s := ⟨c₀, .ofBuffer []⟩) hready hpacked e _ (hprep (.ofBuffer []))

/-- After the tokens nothing more is written, but what comes out depends on the lengths and on the bytes
that are left. -/
theorem puts_loadTables {h : Header} {c : Codec} (hb : h.Begins) (hcov : Covers h.sizes.total h.tokens)
    (hc : c.Ready) (rest : List UInt8) :
    ∃ r, Composes (h.puff ++ rest) h.fields r ∧ ∀ w : BitWriter, w.WellFormed →
      Puts writer w [] r (fun _ => True)
        (loadTables h.sizes (h.puff ++ rest).length h.tokens.length ⟨c.withLitLen h.lens, w⟩) := by
  have hn : h.sizes.litLen ≤ h.lens.length := Header.litLen_le_of_covers hcov hb.expands
  have hlen := hb.length_lens_le hcov
  have hused : 3 + h.sizes.packedSize + h.tokens.length = h.puff.length := by
    rw [Header.length_puff, hb.packedSize_eq, length_pack]
  simp only [loadTables_eq, hused]
  by_cases hf : h.litLen.Feasible ∧ h.distance.Feasible
  · have hv : h.Valid := { hb with covers := hcov, litLen_feasible := hf.1, distance_feasible := hf.2 }
    have hbuild := fun w => buildTables_run h.sizes w hc hlen hn hf.1 hf.2
    by_cases hne : rest = []
    · rw [hne, List.append_nil]
      refine ⟨_, .header hv, fun w hw => ?_⟩
      obtain ⟨c', hrun, -⟩ := hbuild w
      exact .of_ok ((run_bind_ok hrun).trans (finishHeader_ok _)) hw rfl trivial
    · have hleft : h.puff.length ≠ (h.puff ++ rest).length := by
        have := List.length_pos_iff.mpr hne
        rw [List.length_append]
        omega
      refine ⟨_, .trailingBytes hv hne, fun w hw => ?_⟩
      obtain ⟨c', hrun, -⟩ := hbuild w
      exact .of_error ((run_bind_ok hrun).trans (finishHeader_error hleft)) hw rfl
  · rcases silent_buildTables h.sizes (c.withLitLen h.lens) with ⟨_, c₁, hrun⟩ | ⟨e, c₁, hrun⟩
    · exact absurd (buildTables_inv hn (hrun (.ofBuffer []))) hf
    · obtain ⟨length, count, rfl⟩ := failsOnly_buildTables
        (E := fun e => ∃ length count, e = .invalid (.oversubscribed length count))
        (fun length count => ⟨length, count, rfl⟩) (.ofBuffer []) (expandAll_nil_le hb.expands)
        (Nat.le_trans hlen (by decide)) hn e _ (hrun _)
      exact ⟨_, .oversubscribed hb hcov hf length count rest,
        fun w hw => .of_error (run_bind_error (hrun w)) hw rfl⟩

/-- The tokens are composed, and then the tables are built or not. -/
theorem puts_lengthsAndTables {h : Header} {c : Codec} (bytes : List UInt8) (ho : h.Opens)
    (hc : c.Ready) (henc : c.codeLength.codes.Encodes h.code) :
    ∃ (ts : List Token) (r : Except Error Unit),
      Composes (h.openingPuff ++ bytes) (h.openingFields ++ tokenFields h.code ts) r ∧
      ∀ w : BitWriter, w.WellFormed →
        Puts writer w (tokenFields h.code ts) r (fun _ => True)
          ((onLengths (LengthWriting.writeLengths c.codeLength.codes h.code bytes h.sizes.total) >>=
            loadTables h.sizes (h.openingPuff ++ bytes).length) ⟨c, w⟩) := by
  obtain ⟨ts, tokens, htakes, hputs⟩ :=
    LengthWriting.puts_writeTokens henc (by rw [hc.codeLength.size]; decide)
      (by rw [Header.code, length_ofSent]; decide) ho.code_feasible h.sizes.total bytes []
  have htokens : ∀ w : BitWriter, w.WellFormed → Puts writer w (tokenFields h.code ts) tokens
      (fun s => ∃ lens, expandAll [] ts = some lens ∧ s.codec = c.withLitLen lens)
      (onLengths (LengthWriting.writeLengths c.codeLength.codes h.code bytes h.sizes.total) ⟨c, w⟩) := by
    intro w hw
    unfold onLengths
    exact .focus (R := fun p => expandAll [] ts = some p.lens) (hputs w hw) (fun _ => rfl)
      fun p hp => ⟨p.lens, hp, rfl⟩
  cases htakes with
  | endOfBytes hcoded hexp hlt =>
    exact ⟨ts, _, .endOfBytes (ho.begins hcoded hexp) hlt, fun w hw => (htokens w hw).bind_error⟩
  | refused hcoded hexp hlt hbyte rest =>
    have hb := ho.begins hcoded hexp
    refine ⟨ts, _, ?_, fun w hw => (htokens w hw).bind_error⟩
    rw [← List.append_assoc]
    rw [← Header.lens_eq_of_expandAll (h := { h with tokens := ts }) hexp] at hbyte
    exact .token hb hlt hbyte rest
  | covered hcoded hexp hcov rest =>
    obtain ⟨r, hcomposes, hload⟩ := puts_loadTables (ho.begins hcoded hexp) hcov hc rest
    rw [← List.append_assoc]
    refine ⟨ts, r, hcomposes, fun w hw => ?_⟩
    rw [← List.append_nil (tokenFields h.code ts)]
    refine (htokens w hw).bind ?_
    rintro ⟨_, w'⟩ ⟨lens, hlens, rfl⟩ ha
    rw [← Header.lens_eq_of_expandAll (h := { h with tokens := ts }) hlens]
    exact hload w' ha.wellFormed

theorem puts_writeBody {h : Header} {c : Codec} (bytes : List UInt8) (ho : h.Opens)
    (hc : c.Ready) (hlens : c.codeLength.lens = h.code) (henc : c.codeLength.codes.Encodes h.code) :
    ∃ fields r, Composes (h.openingPuff ++ bytes) fields r ∧ ∀ w : BitWriter, w.WellFormed →
      Puts writer w fields r (fun _ => True)
        (writeBody (h.hlit, h.hdist, h.hclen) h.sizes (h.openingPuff ++ bytes).length bytes ⟨c, w⟩) := by
  obtain ⟨ts, r, hcomposes, hputs⟩ := puts_lengthsAndTables bytes ho hc henc
  refine ⟨_, r, hcomposes, fun w hw => (puts_writeOpening ho hlens hw).bind ?_⟩
  rintro ⟨_, w'⟩ rfl ha
  rw [run_bind_ok run_get]
  dsimp only
  rw [hlens]
  exact hputs w' ha.wellFormed

/-- What a puff buffer composes does not depend on the writer. -/
theorem puts_encodeHeader {c : Codec} (hc : c.Sized) (puff : List UInt8) :
    ∃ fields r, Composes puff fields r ∧ ∀ w : BitWriter, w.WellFormed →
      Puts writer w fields r (fun _ => True) (encodeHeader puff ⟨c, w⟩) := by
  by_cases hopen : ∃ (h : Header) (bytes : List UInt8), h.Opens ∧ puff = h.openingPuff ++ bytes
  · obtain ⟨h, bytes, ho, rfl⟩ := hopen
    obtain ⟨c₀, hbegin, hready, -⟩ := Codec.begin_ok hc
    obtain ⟨c₁, hprep, hready₁, hlens, henc⟩ := prepareCode_run ho hready (.ofBuffer [])
    obtain ⟨fields, r, hcomposes, hputs⟩ := puts_writeBody bytes ho hready₁ hlens henc
    refine ⟨fields, r, hcomposes, fun w hw => ?_⟩
    rw [encodeHeader_opens ho (s := ⟨c, w⟩) hbegin]
    rcases silent_prepareCode h.sizes (pack h.sent) c₀ with ⟨_, c₂, hrun⟩ | ⟨e, c₂, hrun⟩
    · obtain rfl : c₂ = c₁ := by injection (hrun _).symm.trans hprep with _ h; injection h
      rw [run_bind_ok (hrun w)]
      exact hputs w hw
    · injection (hrun _).symm.trans hprep
  · simp only [not_exists, not_and] at hopen
    obtain ⟨e, he, hrun⟩ := encodeHeader_refused hc hopen
    refine ⟨[], .error e, .refused hopen he, fun w hw => ?_⟩
    obtain ⟨c', hrun⟩ := hrun w
    exact .of_error hrun hw rfl

end Encoding

theorem Puts.of_sameRun {σ α : Type} {writer : σ → BitWriter} {w : BitWriter}
    {fields : List (List Bool)} {r : Except Error α} {R : σ → σ → Prop}
    {result result' : EStateM.Result Error σ α}
    (h : Puts writer w fields r (fun _ => True) result) (hsame : SameRun writer R result result') :
    Puts writer w fields r (fun _ => True) result' where
  appends := hsame.shown_eq ▸ h.appends
  outcome_of_le hle := hsame.outcome_eq.trans (h.outcome_of_le hle)
  outcome_of_lt hlt := hsame.outcome_eq.trans (h.outcome_of_lt hlt)
  post _ _ _ := trivial

open Encoding

/-- What a puff buffer composes is a matter of the buffer alone: with every codec and every writer, all the
fields are written and the outcome is the composed one, if the writer's buffer has room for them, and
otherwise the fields before the first one that does not fit are written and the run lacks room. -/
theorem encodeHeader_truncates (puff : List UInt8) :
    ∃ fields r, Composes puff fields r ∧
      ∀ (c : Codec) (buffer : List UInt8) (w : BitWriter), c.Reachable → w.Reachable buffer →
        (w.bitCount + fields.flatten.length ≤ 8 * buffer.length →
          outcome (encodeHeader puff ⟨c, w⟩) = r ∧
          w.Appends fields.flatten (finalState (encodeHeader puff ⟨c, w⟩)).writer) ∧
        (8 * buffer.length < w.bitCount + fields.flatten.length →
          outcome (encodeHeader puff ⟨c, w⟩) = .error .insufficientOutput ∧
          w.Appends (fitting (8 * buffer.length - w.bitCount) fields).flatten
            (finalState (encodeHeader puff ⟨c, w⟩)).writer) := by
  obtain ⟨fields, r, hcomposes, hputs⟩ := puts_encodeHeader Codec.sized_new puff
  refine ⟨fields, r, hcomposes, fun c buffer w hc hw => ?_⟩
  have hrun := (hputs w hw.wellFormed).of_sameRun (Codec.encodeHeader_sameRun .new hc puff w)
  have hsize := hw.bitCount_add_room
  have hroom : 8 * buffer.length - w.bitCount = w.room := by omega
  refine ⟨fun hle => ⟨hrun.outcome_of_le (by omega), hrun.appends_of_le (by omega)⟩, fun hlt => ?_⟩
  exact ⟨hrun.outcome_of_lt (by omega), hroom ▸ hrun.appends⟩

/-- Sixteen bytes have room for the plain header; three bytes get the first fields of it. -/
theorem encodeHeader_truncates_plain : ∃ s s',
    encodeHeader Header.plain.puff ⟨.new, .ofBuffer (List.replicate 16 0)⟩ = .ok () s ∧
    s.writer.bits = Header.plain.bits ∧
    encodeHeader Header.plain.puff ⟨.new, .ofBuffer (List.replicate 3 0)⟩ =
      .error .insufficientOutput s' ∧
    s'.writer.bits <+: Header.plain.bits := by
  obtain ⟨fields, r, -, hevery⟩ := encodeHeader_truncates Header.plain.puff
  obtain ⟨hlarge, hlarge'⟩ := hevery .new (List.replicate 16 0) _ .new .start
  obtain ⟨-, hsmall⟩ := hevery .new (List.replicate 3 0) _ .new .start
  rcases encodeHeader_run (s := ⟨.new, .ofBuffer (List.replicate 16 0)⟩)
    (BitWriter.wellFormed_ofBuffer _) Codec.sized_new Header.plain_valid with
    ⟨-, s, hok, hwrites⟩ | ⟨hfull, -⟩
  swap
  · refine absurd hfull (Nat.not_lt.mpr ?_)
    rw [BitWriter.room_ofBuffer, Header.length_bits]
    decide +kernel
  rw [hok] at hlarge hlarge'
  obtain ⟨-, happ⟩ := hlarge (Nat.le_of_not_lt fun hlt => nomatch (hlarge' hlt).1)
  have hbits := hwrites.writer.bits_eq
  have hflat : fields.flatten = Header.plain.bits := by
    have hsame := happ.bits_eq.symm.trans hbits
    rwa [BitWriter.bits_ofBuffer, List.nil_append, List.nil_append] at hsame
  obtain ⟨hout, happ'⟩ := hsmall (by rw [hflat, Header.length_bits]; decide +kernel)
  obtain ⟨s', hcut⟩ := eq_error_of_outcome hout
  have hbits' := happ'.bits_eq
  rw [BitWriter.bits_ofBuffer, List.nil_append] at hbits hbits'
  rw [hcut, finalState_error] at hbits'
  exact ⟨s, s', hok, hbits, hcut, hflat ▸ hbits' ▸ flatten_fitting_isPrefix _ fields⟩

end DeflateHeader
