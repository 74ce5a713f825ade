import DeflateHeader.Proofs.BitWriting
import DeflateHeader.Proofs.SymbolCodes
import DeflateHeader.Proofs.TokenLengths

/-!
# Writing tokens

`WritesToken code byte s` lists every outcome that writing one byte as a token with a table for
`code` can have (`writeToken_run`).

From it follows what writing a sequence does. If it succeeds, the bytes begin with tokens that
cover the missing lengths, and exactly their bits were appended (`writeTokens_ok`). If the bytes
begin with such tokens, it writes them unless the buffer is too small (`writeTokens_run`). What
comes after the tokens has no influence.
-/

namespace DeflateHeader

namespace LengthWriting

variable {α : Type} {s s' : LengthWriting} {a : α} {e : Error}

theorem onWriter_ok {act : EStateM Error BitWriter α} {w : BitWriter}
    (h : act s.writer = .ok a w) : onWriter act s = .ok a { s with writer := w } :=
  focus_ok h

theorem onWriter_error {act : EStateM Error BitWriter α} {w : BitWriter}
    (h : act s.writer = .error e w) : onWriter act s = .error e { s with writer := w } :=
  focus_error h

/-! ## One token -/

/-- The outcomes of writing the token that a byte stands for, each with the state it leaves. -/
inductive WritesToken (code : Lengths) (byte : UInt8) (s : LengthWriting) :
    EStateM.Result Error LengthWriting Token → Prop
  | token {t : Token} {value : UInt8} {w : BitWriter} (hbyte : byte = t.toByte)
      (hcoded : 0 < code.lengthOf t.symbol) (hvalue : t.value? s.lens = some value)
      (hw : s.writer.Appends (t.bits code) w) :
      WritesToken code byte s (.ok t ⟨w, s.lens ++ List.replicate t.count value⟩)
  | invalidToken (h : 155 < byte.toNat) :
      WritesToken code byte s (.error (.invalid (.invalidToken byte.toNat)) s)
  | unusedSymbol {t : Token} (hbyte : byte = t.toByte) (h : code.lengthOf t.symbol = 0) :
      WritesToken code byte s (.error (.invalid (.unusedSymbol t.symbol)) s)
  | noPrevious {t : Token} (hbyte : byte = t.toByte) (hcoded : 0 < code.lengthOf t.symbol)
      (h : t.value? s.lens = none) :
      WritesToken code byte s (.error (.invalid .repeatWithoutPrevious) s)
  | noRoom {t : Token} (hbyte : byte = t.toByte) (hcoded : 0 < code.lengthOf t.symbol)
      (h : s.writer.room < code.lengthOf t.symbol) (hvalue : t.value? s.lens ≠ none) :
      WritesToken code byte s (.error .insufficientOutput s)
  | noRoomExtra {t : Token} {w : BitWriter} (hbyte : byte = t.toByte)
      (hcoded : 0 < code.lengthOf t.symbol) (h : s.writer.room < (t.bits code).length)
      (hw : s.writer.Appends (code.codeBits t.symbol) w) (hvalue : t.value? s.lens ≠ none) :
      WritesToken code byte s (.error .insufficientOutput { s with writer := w })

variable {table : CodeTable} {code : Lengths}

/-- Writing a token has one of the listed outcomes, or its symbol is outside the code or the table. -/
theorem writeToken_cases (he : table.Encodes code) (hf : code.Feasible) (hs : s.writer.WellFormed)
    (byte : UInt8) :
    WritesToken code byte s (writeToken table code byte s) ∨
      ∃ t : Token, byte = t.toByte ∧
        (code.length ≤ t.symbol ∧ writeToken table code byte s = .error (.fault .outOfRange) s ∨
        table.size ≤ t.symbol ∧
          writeToken table code byte s = .error (.invalid (.unusedSymbol t.symbol)) s) := by
  unfold writeToken
  rw [Token.ofByte]
  cases hb : Token.ofByte? byte with
  | none => exact .inl (.invalidToken (Token.ofByte?_eq_none_iff.mp hb))
  | some t =>
    have hbyte := Token.ofByte?_eq_some_iff.mp hb
    dsimp only
    rcases Nat.lt_or_ge t.symbol code.length with hlt | hge
    swap
    · rw [List.getElem?_eq_none hge]
      exact .inr ⟨t, hbyte, .inl ⟨hge, rfl⟩⟩
    have hl := Lengths.lengthOf_eq_getElem hlt
    simp only [List.getElem?_eq_getElem hlt, ← hl]
    by_cases hz : code.lengthOf t.symbol = 0
    · rw [codeOf?, if_pos hz]
      exact .inl (.unusedSymbol hbyte hz)
    rw [codeOf?, if_neg hz]
    rcases Nat.lt_or_ge t.symbol table.size with hsize | hsize
    swap
    · have hnone : table.code t.symbol = none := Array.getElem?_eq_none hsize
      rw [hnone]
      exact .inr ⟨t, hbyte, .inr ⟨hsize, rfl⟩⟩
    refine .inl ?_
    rw [he t.symbol hsize, if_neg hz]
    have hcoded := Nat.pos_of_ne_zero hz
    have hle : code.lengthOf t.symbol ≤ 32 := Nat.le_trans (hf.lengthOf_le _) (by decide)
    dsimp only
    rw [run_bind_ok run_get]
    by_cases hprev : t.isRepeatPrevious = true ∧ s.lens = []
    · rw [if_pos hprev]
      exact .noPrevious hbyte hcoded
        (Token.value?_eq_none_iff.mpr ⟨t.isRepeatPrevious_iff.mp hprev.1, hprev.2⟩)
    rw [if_neg hprev]
    have hsome : t.value? s.lens ≠ none := fun hnone =>
      hprev ((Token.value?_eq_none_iff.mp hnone).imp_left t.isRepeatPrevious_iff.mpr)
    obtain ⟨value, hv⟩ := Option.ne_none_iff_exists'.mp hsome
    rcases Nat.lt_or_ge s.writer.room (code.lengthOf t.symbol) with hroom | hroom
    · rw [run_bind_error (onWriter_error (BitWriter.put_error hs hle hroom))]
      exact .noRoom hbyte hcoded hroom hsome
    obtain ⟨w, hput, hw⟩ := BitWriter.put_ok (v := Bits.toNat (code.codeBits t.symbol)) hs hle hroom
    rw [Bits.ofNat_toNat_of_length (Lengths.length_codeBits code t.symbol)] at hw
    rw [run_bind_ok (onWriter_ok hput)]
    have hwidth : t.extraWidth ≤ 32 := Nat.le_trans t.extraWidth_le (by decide)
    rcases Nat.lt_or_ge w.room t.extraWidth with hroom' | hroom'
    · rw [run_bind_error (onWriter_error (s := { s with writer := w })
        (BitWriter.put_error hw.wellFormed hwidth hroom'))]
      refine .noRoomExtra hbyte hcoded ?_ hw hsome
      have := hw.room_eq
      rw [Lengths.length_codeBits] at this
      rw [Token.length_bits]
      omega
    obtain ⟨w', hput', hw'⟩ := BitWriter.put_ok (v := t.extra) hw.wellFormed hwidth hroom'
    rw [run_bind_ok (onWriter_ok (s := { s with writer := w }) hput'), run_bind_ok run_get]
    simp only [Token.expand, hv]
    exact .token hbyte hcoded hv (hw.trans hw')

/-- Writing a token has one of the listed outcomes if the code and the table have all the symbols. -/
theorem writeToken_run (he : table.Encodes code) (hsize : 19 ≤ table.size)
    (hlen : 19 ≤ code.length) (hf : code.Feasible) (hs : s.writer.WellFormed) (byte : UInt8) :
    WritesToken code byte s (writeToken table code byte s) := by
  refine (writeToken_cases he hf hs byte).resolve_right ?_
  rintro ⟨t, -, hout⟩
  have := t.symbol_le
  omega

/-- A token that has a code is written, if there is room for its bits. -/
theorem writeToken_toByte {t : Token} {value : UInt8} (he : table.Encodes code)
    (hsize : 19 ≤ table.size) (hlen : 19 ≤ code.length) (hf : code.Feasible)
    (hs : s.writer.WellFormed) (ht : 0 < code.lengthOf t.symbol)
    (hvalue : t.value? s.lens = some value) :
    ((t.bits code).length ≤ s.writer.room ∧ ∃ w,
      writeToken table code t.toByte s = .ok t ⟨w, s.lens ++ List.replicate t.count value⟩ ∧
      s.writer.Appends (t.bits code) w) ∨
    (s.writer.room < (t.bits code).length ∧
      ∃ s', writeToken table code t.toByte s = .error .insufficientOutput s') := by
  have hrun := writeToken_run he hsize hlen hf hs t.toByte
  generalize writeToken table code t.toByte s = result at hrun
  cases hrun with
  | token hbyte hcoded hvalue' hw =>
    obtain rfl := Token.toByte_inj hbyte
    obtain rfl := Option.some.inj (hvalue'.symm.trans hvalue)
    have := hw.room_eq
    exact .inl ⟨by omega, _, rfl, hw⟩
  | invalidToken h =>
    have := t.toNat_toByte_le
    omega
  | unusedSymbol hbyte h =>
    obtain rfl := Token.toByte_inj hbyte
    omega
  | noPrevious hbyte hcoded h =>
    obtain rfl := Token.toByte_inj hbyte
    rw [h] at hvalue
    cases hvalue
  | noRoom hbyte hcoded h =>
    obtain rfl := Token.toByte_inj hbyte
    refine .inr ⟨?_, s, rfl⟩
    rw [Token.length_bits]
    omega
  | noRoomExtra hbyte hcoded h hw =>
    obtain rfl := Token.toByte_inj hbyte
    exact .inr ⟨h, _, rfl⟩

/-! ## A sequence of tokens -/

/-- `s'` is `s` after the tokens `ts` were written to it. -/
structure WritesTokens (code : Lengths) (ts : List Token) (s s' : LengthWriting) : Prop where
  coded : ∀ t ∈ ts, 0 < code.lengthOf t.symbol
  writer : s.writer.Appends (tokenBits code ts) s'.writer
  lens : expandAll s.lens ts = some s'.lens

theorem WritesTokens.nil (h : s.writer.WellFormed) : WritesTokens code [] s s where
  coded := by simp
  writer := .refl h
  lens := rfl

theorem WritesTokens.cons {t : Token} {ts : List Token} {value : UInt8} {w : BitWriter}
    (hcoded : 0 < code.lengthOf t.symbol) (hvalue : t.value? s.lens = some value)
    (hw : s.writer.Appends (t.bits code) w)
    (h : WritesTokens code ts ⟨w, s.lens ++ List.replicate t.count value⟩ s') :
    WritesTokens code (t :: ts) s s' where
  coded := by
    intro t' ht'
    rcases List.mem_cons.mp ht' with rfl | ht'
    · exact hcoded
    · exact h.coded t' ht'
  writer := hw.trans h.writer
  lens := by rw [expandAll_cons_of_some hvalue, h.lens]

/-- A successful run has written tokens that cover the missing lengths. -/
theorem writeTokens_ok (he : table.Encodes code) (hsize : 19 ≤ table.size)
    (hlen : 19 ≤ code.length) (hf : code.Feasible) {missing n : Nat} {bytes : List UInt8}
    (hs : s.writer.WellFormed) (h : writeTokens table code missing bytes s = .ok n s') :
    ∃ ts rest, Covers missing ts ∧ bytes = ts.map Token.toByte ++ rest ∧ n = ts.length ∧
      WritesTokens code ts s s' := by
  replace h := tokenRun_of_writeTokens h
  induction h with
  | done bytes s => exact ⟨[], bytes, rfl, rfl, rfl, .nil hs⟩
  | @token missing n byte bytes t s s₁ s' hstep hrest ih =>
    have hrun := writeToken_run he hsize hlen hf hs byte
    rw [hstep] at hrun
    cases hrun with
    | token hbyte hcoded hvalue hw =>
      obtain ⟨ts, rest, hcov, rfl, rfl, hall⟩ := ih hw.wellFormed
      exact ⟨t :: ts, rest, hcov, by rw [hbyte]; rfl, rfl, .cons hcoded hvalue hw hall⟩

/-- A run that fails has written tokens that do not cover the missing lengths, and fails for want of a
byte or at the next one. -/
theorem writeTokens_error (he : table.Encodes code) (hf : code.Feasible) {missing : Nat}
    {bytes : List UInt8} (hs : s.writer.WellFormed)
    (h : writeTokens table code missing bytes s = .error e s') :
    ∃ ts rest s₁, totalCount ts < missing ∧ bytes = ts.map Token.toByte ++ rest ∧
      WritesTokens code ts s s₁ ∧
      ((rest = [] ∧ e = .insufficientInput ∧ s' = s₁) ∨
        ∃ byte rest', rest = byte :: rest' ∧ writeToken table code byte s₁ = .error e s') := by
  induction bytes generalizing missing s with
  | nil =>
    cases missing with
    | zero => cases h
    | succ missing =>
      cases h
      exact ⟨[], [], _, Nat.succ_pos missing, rfl, .nil hs, .inl ⟨rfl, rfl, rfl⟩⟩
  | cons byte bytes ih =>
    cases missing with
    | zero => cases h
    | succ missing =>
      rw [writeTokens] at h
      rcases error_of_bind h with hfail | ⟨t, s₁, hstep, h⟩
      · exact ⟨[], byte :: bytes, s, Nat.succ_pos missing, rfl, .nil hs, .inr ⟨byte, bytes, rfl, hfail⟩⟩
      have hrun := writeToken_cases he hf hs byte
      rw [hstep] at hrun
      rcases hrun with hrun | ⟨_, -, ⟨-, hfail⟩ | ⟨-, hfail⟩⟩
      · cases hrun with
        | token hbyte hcoded hvalue hw =>
          rcases error_of_bind h with hrest | ⟨n, s₂, -, h⟩
          · have hpos := t.count_pos
            obtain ⟨ts, rest, s₂, hlt, rfl, hall, hfail⟩ := ih hw.wellFormed hrest
            exact ⟨t :: ts, rest, s₂, by rw [totalCount_cons]; omega, by rw [hbyte]; rfl,
              .cons hcoded hvalue hw hall, hfail⟩
          · cases h
      · cases hfail
      · cases hfail

/-- What happens to bytes that begin with tokens which cover the missing lengths: the tokens are
written if the buffer has room for all their bits. -/
theorem writeTokens_run (he : table.Encodes code) (hsize : 19 ≤ table.size)
    (hlen : 19 ≤ code.length) (hf : code.Feasible) {missing : Nat} {ts : List Token}
    {lens : Lengths} (rest : List UInt8) (hs : s.writer.WellFormed) (hcov : Covers missing ts)
    (hcoded : ∀ t ∈ ts, 0 < code.lengthOf t.symbol) (hlens : expandAll s.lens ts = some lens) :
    ((tokenBits code ts).length ≤ s.writer.room ∧
      ∃ s', writeTokens table code missing (ts.map Token.toByte ++ rest) s = .ok ts.length s' ∧
        WritesTokens code ts s s') ∨
    (s.writer.room < (tokenBits code ts).length ∧
      ∃ s', writeTokens table code missing (ts.map Token.toByte ++ rest) s =
        .error .insufficientOutput s') := by
  induction ts generalizing missing s with
  | nil =>
    cases missing with
    | succ missing => exact hcov.elim
    | zero =>
      refine .inl ⟨Nat.zero_le _, s, ?_, .nil hs⟩
      rw [writeTokens]
      rfl
  | cons t ts ih =>
    cases missing with
    | zero => cases hcov
    | succ missing =>
      obtain ⟨value, hvalue, hlens⟩ := expandAll_cons_eq_some hlens
      have ht := hcoded t (by simp)
      rw [List.map_cons, List.cons_append, writeTokens, tokenBits_cons, List.length_append]
      rcases writeToken_toByte he hsize hlen hf hs ht hvalue with
        ⟨hroom, w, hstep, hw⟩ | ⟨hroom, s', hstep⟩
      · have hrest := hw.room_eq
        rw [run_bind_ok hstep]
        rcases ih (s := ⟨w, s.lens ++ List.replicate t.count value⟩) hw.wellFormed hcov
            (fun t ht => hcoded t (by simp [ht])) hlens
          with ⟨hle, s', hok, hall⟩ | ⟨hlt, s', herr⟩
        · dsimp only at hle
          refine .inl ⟨by omega, s', ?_, .cons ht hvalue hw hall⟩
          rw [run_bind_ok hok]
          rfl
        · dsimp only at hlt
          exact .inr ⟨by omega, s', run_bind_error herr⟩
      · exact .inr ⟨by omega, s', run_bind_error hstep⟩

/-- What happens to bytes that are tokens which do not cover the missing lengths: a byte is missing after
them, if there is room for all their bits. -/
theorem writeTokens_short (he : table.Encodes code) (hsize : 19 ≤ table.size)
    (hlen : 19 ≤ code.length) (hf : code.Feasible) {missing : Nat} {ts : List Token}
    {lens : Lengths} (hs : s.writer.WellFormed) (hlt : totalCount ts < missing)
    (hcoded : ∀ t ∈ ts, 0 < code.lengthOf t.symbol) (hlens : expandAll s.lens ts = some lens)
    (hroom : (tokenBits code ts).length ≤ s.writer.room) :
    ∃ s', writeTokens table code missing (ts.map Token.toByte) s = .error .insufficientInput s' := by
  induction ts generalizing missing s with
  | nil =>
    cases missing with
    | zero => exact absurd hlt (Nat.lt_irrefl 0)
    | succ missing => exact ⟨s, rfl⟩
  | cons t ts ih =>
    cases missing with
    | zero => exact absurd hlt (Nat.not_lt_zero _)
    | succ missing =>
      obtain ⟨value, hvalue, hlens⟩ := expandAll_cons_eq_some hlens
      rw [totalCount_cons] at hlt
      rw [tokenBits_cons, List.length_append] at hroom
      rw [List.map_cons, writeTokens]
      rcases writeToken_toByte he hsize hlen hf hs (hcoded t (by simp)) hvalue with
        ⟨-, w, hstep, hw⟩ | ⟨hshort, -⟩
      · have hrest := hw.room_eq
        have hleft : totalCount ts < missing + 1 - t.count := by omega
        obtain ⟨s', herr⟩ := ih (s := ⟨w, s.lens ++ List.replicate t.count value⟩) hw.wellFormed hleft
          (fun t ht => hcoded t (by simp [ht])) hlens (by dsimp only; omega)
        rw [run_bind_ok hstep]
        exact ⟨s', run_bind_error herr⟩
      · omega

/-- The lengths that were there before play no role. -/
theorem run_writeLengths (bytes : List UInt8) (target : Nat) :
    writeLengths table code bytes target s = writeTokens table code target bytes { s with lens := [] } :=
  rfl

end LengthWriting
end DeflateHeader
