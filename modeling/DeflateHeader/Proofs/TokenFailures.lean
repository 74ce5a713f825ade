import DeflateHeader.Code.Fixed
import DeflateHeader.Proofs.TokenReading
import DeflateHeader.Proofs.TokenWriting

/-!
# What a failure leaves behind

Reading or writing code lengths that fails has done some tokens completely, and stops at the next one.
`Unread` and `Unwritten` list the reasons why it stops there, each with the bits of that token that are
gone all the same: none, or the code of its symbol. Everything else agrees with the tokens before: the
bytes in the buffer, the lengths, and the position in the stream (`LengthReading.readLengths_error`,
`LengthWriting.writeLengths_error`).
-/

namespace DeflateHeader

variable {code : Lengths} {left part : List Bool} {room size : Nat} {bytes : List UInt8} {e : Error}

/-- No token is read from the bits that are `left`, with `room` for its byte, for the reason `e`;
`part` of the bits are consumed. -/
inductive Unread (code : Lengths) (left : List Bool) (room : Nat) : Error → List Bool → Prop
  | noLookahead (h : left.length < code.maxLength) : Unread code left room .insufficientInput []
  | unknownCode (h : ∀ symbol, 0 < code.lengthOf symbol → ¬ code.codeBits symbol <+: left) :
      Unread code left room (.invalid .unknownCode) []
  | noRoom (h : room = 0) : Unread code left room .insufficientOutput []
  | invalidSymbol {symbol : Nat} (hcoded : 0 < code.lengthOf symbol)
      (hbits : code.codeBits symbol <+: left) (h : 18 < symbol) :
      Unread code left room (.invalid (.invalidSymbol symbol)) (code.codeBits symbol)
  | noPrevious (hcoded : 0 < code.lengthOf 16) (hbits : code.codeBits 16 <+: left) :
      Unread code left room (.invalid .repeatWithoutPrevious) (code.codeBits 16)
  | noExtra {symbol width : Nat} (hlook : code.maxLength ≤ left.length)
      (hcoded : 0 < code.lengthOf symbol) (hbits : code.codeBits symbol <+: left)
      (hw : Token.extraWidth? symbol = some width) (h : left.length < code.lengthOf symbol + width) :
      Unread code left room .insufficientInput (code.codeBits symbol)

/-- No token is written from the bytes that are next, with a table of `size` symbols and `room` for its
bits, for the reason `e`; `part` of the bits are written. -/
inductive Unwritten (code : Lengths) (size room : Nat) : List UInt8 → Error → List Bool → Prop
  | endOfBytes : Unwritten code size room [] .insufficientInput []
  | invalidToken {byte : UInt8} {rest : List UInt8} (h : 155 < byte.toNat) :
      Unwritten code size room (byte :: rest) (.invalid (.invalidToken byte.toNat)) []
  | outOfRange {t : Token} {rest : List UInt8} (h : code.length ≤ t.symbol) :
      Unwritten code size room (t.toByte :: rest) (.fault .outOfRange) []
  | unusedSymbol {t : Token} {rest : List UInt8} (h : code.lengthOf t.symbol = 0 ∨ size ≤ t.symbol) :
      Unwritten code size room (t.toByte :: rest) (.invalid (.unusedSymbol t.symbol)) []
  | noPrevious {t : Token} {rest : List UInt8} (h : t.symbol = 16) :
      Unwritten code size room (t.toByte :: rest) (.invalid .repeatWithoutPrevious) []
  | noRoom {t : Token} {rest : List UInt8} (h : room < code.lengthOf t.symbol) :
      Unwritten code size room (t.toByte :: rest) .insufficientOutput []
  | noRoomExtra {t : Token} {rest : List UInt8} (hcoded : 0 < code.lengthOf t.symbol)
      (hfits : code.lengthOf t.symbol ≤ room) (h : room < (t.bits code).length) :
      Unwritten code size room (t.toByte :: rest) .insufficientOutput (code.codeBits t.symbol)

theorem Lengths.codeBits_ne_nil {symbol : Nat} (h : 0 < code.lengthOf symbol) :
    code.codeBits symbol ≠ [] :=
  List.ne_nil_of_length_pos (by rwa [Lengths.length_codeBits])

/-- The code is consumed if its symbol is of no use, or if the bits run out only after it. -/
theorem Unread.part_ne_nil_iff (h : Unread code left room e part) :
    part ≠ [] ↔ (∃ symbol, e = .invalid (.invalidSymbol symbol)) ∨
      e = .invalid .repeatWithoutPrevious ∨
      e = .insufficientInput ∧ code.maxLength ≤ left.length := by
  cases h with
  | noLookahead h => simp [Nat.not_le.mpr h]
  | unknownCode h => simp
  | noRoom h => simp
  | invalidSymbol hcoded hbits h => simp [Lengths.codeBits_ne_nil hcoded]
  | noPrevious hcoded hbits => simp [Lengths.codeBits_ne_nil hcoded]
  | noExtra hlook hcoded hbits hw h => simp [Lengths.codeBits_ne_nil hcoded, hlook]

/-- The code is written if there is room for it and not for the extra bits. -/
theorem Unwritten.part_ne_nil_iff (h : Unwritten code size room bytes e part) :
    part ≠ [] ↔ e = .insufficientOutput ∧ ∃ (t : Token) (rest : List UInt8), bytes = t.toByte :: rest ∧
      0 < code.lengthOf t.symbol ∧ code.lengthOf t.symbol ≤ room ∧ room < (t.bits code).length := by
  cases h with
  | endOfBytes => simp
  | invalidToken h => simp
  | outOfRange h => simp
  | unusedSymbol h => simp
  | noPrevious h => simp
  | @noRoom t rest h =>
    refine ⟨fun hne => absurd rfl hne, ?_⟩
    rintro ⟨-, t', rest', heq, -, hfits, -⟩
    obtain rfl := Token.toByte_inj (List.head_eq_of_cons_eq heq)
    exact absurd hfits (Nat.not_le.mpr h)
  | @noRoomExtra t rest hcoded hfits h =>
    exact ⟨fun _ => ⟨rfl, t, rest, rfl, hcoded, hfits, h⟩, fun _ => Lengths.codeBits_ne_nil hcoded⟩

/-! ## Reading -/

namespace LengthReading

variable {table : LookupTable} {s s' : LengthReading} {target : Nat}

/-- The token at which a run stops leaves the buffer and the lengths alone. -/
theorem ReadsToken.unread (hs : s.reader.WellFormed) (h : ReadsToken code s (.error e s')) :
    ∃ part, Unread code s.reader.bits s.sink.room e part ∧ part <+: s.reader.bits ∧
      s.reader.Moves part.length s'.reader ∧ s'.sink = s.sink ∧ s'.lens = s.lens := by
  have hlen := s.reader.length_bits
  cases h with
  | noLookahead h => exact ⟨[], .noLookahead (hlen ▸ h), List.nil_prefix, .refl hs, rfl, rfl⟩
  | unknownCode hlook h hr => exact ⟨[], .unknownCode h, List.nil_prefix, hr, rfl, rfl⟩
  | noRoom hlook h hr => exact ⟨[], .noRoom h, List.nil_prefix, hr, rfl, rfl⟩
  | invalidSymbol hcoded hbits h hr =>
    exact ⟨_, .invalidSymbol hcoded hbits h, hbits, by rwa [Lengths.length_codeBits], rfl, rfl⟩
  | noPrevious hcoded hbits h hr =>
    exact ⟨_, .noPrevious hcoded hbits, hbits, by rwa [Lengths.length_codeBits], rfl, rfl⟩
  | noExtra hcoded hbits hw h hr hlook =>
    exact ⟨_, .noExtra (hlen ▸ hlook) hcoded hbits hw (hlen ▸ h), hbits,
      by rwa [Lengths.length_codeBits], rfl, rfl⟩

/-- A failure leaves the tokens before it, and the code of the one at which it stops or nothing. -/
theorem readLengths_error (hd : table.Decodes code) (hf : code.Feasible) (hs : s.reader.WellFormed)
    (h : readLengths table code target s = .error e s') :
    ∃ ts part, (∀ t ∈ ts, 0 < code.lengthOf t.symbol) ∧
      s.sink.Gets (ts.map Token.toByte) s'.sink ∧ expandAll [] ts = some s'.lens ∧
      s'.lens.length < target ∧ s.reader.bits = tokenBits code ts ++ part ++ s'.reader.bits ∧
      s.reader.Moves (tokenBits code ts ++ part).length s'.reader ∧
      Unread code (part ++ s'.reader.bits) s'.sink.room e part := by
  rw [run_readLengths] at h
  obtain ⟨ts, s₁, hlt, hall, hstop⟩ := readTokens_error (s := { s with lens := [] }) hd hf hs h
  obtain ⟨part, hunread, ⟨rest, hrest⟩, hmoves, hsink, hlens⟩ := hstop.unread hall.reader.wellFormed
  obtain ⟨left, hleft⟩ := hall.bits
  have hleft' := hall.reader.bits_of_append hleft.symm rfl
  have hrest' := hmoves.bits_of_append hrest.symm rfl
  have hcount : s'.lens.length = totalCount ts := by
    simpa [hlens] using length_expandAll hall.lens
  refine ⟨ts, part, hall.coded, hsink ▸ hall.sink, hlens ▸ hall.lens, by omega, ?_, ?_, ?_⟩
  · rw [hrest', List.append_assoc, hrest, hleft']
    exact hleft.symm
  · rw [List.length_append]
    exact hall.reader.trans hmoves
  · rw [hrest', hrest, hsink]
    exact hunread

end LengthReading

/-! ## Writing -/

namespace LengthWriting

variable {table : CodeTable} {s s' : LengthWriting} {target : Nat}

/-- The byte at which a run stops leaves the lengths alone. -/
theorem writeToken_unwritten (he : table.Encodes code) (hf : code.Feasible)
    (hs : s.writer.WellFormed) {byte : UInt8} (rest : List UInt8)
    (hfail : writeToken table code byte s = .error e s') :
    ∃ part, Unwritten code table.size s.writer.room (byte :: rest) e part ∧
      s.writer.Appends part s'.writer ∧ s'.lens = s.lens := by
  have hrun := writeToken_cases he hf hs byte
  rw [hfail] at hrun
  obtain hrun | ⟨t, rfl, ⟨hout, heq⟩ | ⟨hout, heq⟩⟩ := hrun
  · cases hrun with
    | invalidToken h => exact ⟨[], .invalidToken h, .refl hs, rfl⟩
    | unusedSymbol hbyte h =>
      subst hbyte
      exact ⟨[], .unusedSymbol (.inl h), .refl hs, rfl⟩
    | noPrevious hbyte hcoded h =>
      subst hbyte
      exact ⟨[], .noPrevious (Token.value?_eq_none_iff.mp h).1, .refl hs, rfl⟩
    | noRoom hbyte hcoded h =>
      subst hbyte
      exact ⟨[], .noRoom h, .refl hs, rfl⟩
    | noRoomExtra hbyte hcoded h hw =>
      subst hbyte
      have hroom := hw.room_eq
      rw [Lengths.length_codeBits] at hroom
      exact ⟨_, .noRoomExtra hcoded (by omega) h, hw, rfl⟩
  · cases heq
    exact ⟨[], .outOfRange hout, .refl hs, rfl⟩
  · cases heq
    exact ⟨[], .unusedSymbol (.inr hout), .refl hs, rfl⟩

/-- A failure leaves the tokens before it, and the code of the one at which it stops or nothing. -/
theorem writeLengths_error (he : table.Encodes code) (hf : code.Feasible) (hs : s.writer.WellFormed)
    (h : writeLengths table code bytes target s = .error e s') :
    ∃ ts rest part, (∀ t ∈ ts, 0 < code.lengthOf t.symbol) ∧ bytes = ts.map Token.toByte ++ rest ∧
      expandAll [] ts = some s'.lens ∧ s'.lens.length < target ∧
      s.writer.Appends (tokenBits code ts ++ part) s'.writer ∧
      Unwritten code table.size (s.writer.room - (tokenBits code ts).length) rest e part := by
  rw [run_writeLengths] at h
  obtain ⟨ts, rest, s₁, hlt, rfl, hall, hstop⟩ :=
    writeTokens_error (s := { s with lens := [] }) he hf hs h
  have hcount : s₁.lens.length = totalCount ts := by simpa using length_expandAll hall.lens
  obtain ⟨rfl, rfl, rfl⟩ | ⟨byte, rest, rfl, hfail⟩ := hstop
  · refine ⟨ts, [], [], hall.coded, rfl, hall.lens, by omega, ?_, .endOfBytes⟩
    rw [List.append_nil]
    exact hall.writer
  · obtain ⟨part, hunwritten, hpart, hlens⟩ :=
      writeToken_unwritten he hf hall.writer.wellFormed rest hfail
    have hroom : s.writer.room - (tokenBits code ts).length = s₁.writer.room :=
      Nat.sub_eq_of_eq_add hall.writer.room_eq.symm
    exact ⟨ts, byte :: rest, part, hall.coded, rfl, hlens ▸ hall.lens, by rw [hlens]; omega,
      hall.writer.trans hpart, hroom ▸ hunwritten⟩

end LengthWriting

open LengthReading LengthWriting

/-- For every code that is accepted, every target, input and buffer: if code lengths cannot be read or
written, the tokens `ts` were done before that. The buffer has their bytes and the old ones after them,
the lengths are those that the tokens stand for and too few, and the stream is after their bits. Bits
beyond them, the code of one more symbol, are read exactly if that symbol is of no use or its extra bits
are missing, and written exactly if there is room for them and not for the extra bits. -/
theorem failed_lengths (codeLens : Lengths) (target : Nat) :
    (∀ t dec book sorted n, codeLens.length ≤ slotSymbols →
      LookupTable.build codeLens (t, book) = .ok n (dec, sorted) →
      ∀ bytes r, BitReader.Reachable bytes r → ∀ sink lens e s',
      readLengths dec codeLens target ⟨r, sink, lens⟩ = .error e s' →
      ∃ ts part, (∀ t ∈ ts, 0 < codeLens.lengthOf t.symbol) ∧
        sink.Gets (ts.map Token.toByte) s'.sink ∧ expandAll [] ts = some s'.lens ∧
        s'.lens.length < target ∧
        (Bits.ofBytes bytes).drop r.consumed = tokenBits codeLens ts ++ part ++ s'.reader.bits ∧
        s'.reader.consumed = r.consumed + (tokenBits codeLens ts ++ part).length ∧
        Unread codeLens (part ++ s'.reader.bits) s'.sink.room e part ∧
        (part ≠ [] ↔ (∃ symbol, e = .invalid (.invalidSymbol symbol)) ∨
          e = .invalid .repeatWithoutPrevious ∨
          e = .insufficientInput ∧ codeLens.maxLength ≤ (part ++ s'.reader.bits).length)) ∧
    ∀ u enc book sorted n, codeLens.length ≤ symbolRange →
      CodeTable.build codeLens (u, book) = .ok n (enc, sorted) →
      ∀ buffer w, BitWriter.Reachable buffer w → ∀ tokens lens e s',
      writeLengths enc codeLens tokens target ⟨w, lens⟩ = .error e s' →
      ∃ ts rest part, (∀ t ∈ ts, 0 < codeLens.lengthOf t.symbol) ∧
        tokens = ts.map Token.toByte ++ rest ∧ expandAll [] ts = some s'.lens ∧
        s'.lens.length < target ∧ w.Appends (tokenBits codeLens ts ++ part) s'.writer ∧
        Unwritten codeLens enc.size (w.room - (tokenBits codeLens ts).length) rest e part ∧
        (part ≠ [] ↔ e = .insufficientOutput ∧ ∃ t rest', rest = Token.toByte t :: rest' ∧
          0 < codeLens.lengthOf t.symbol ∧
          codeLens.lengthOf t.symbol ≤ w.room - (tokenBits codeLens ts).length ∧
          w.room - (tokenBits codeLens ts).length < (t.bits codeLens).length) := by
  constructor
  · intro t dec book sorted n hmax hdec bytes r hr sink lens e s' h
    obtain ⟨hf, -, hd⟩ := LookupTable.decodes_of_build hmax hdec
    obtain ⟨ts, part, hcoded, hsink, hlens, hlt, hbits, hmoves, hunread⟩ :=
      readLengths_error hd hf hr.wellFormed h
    exact ⟨ts, part, hcoded, hsink, hlens, hlt, hr.bits_eq ▸ hbits, hmoves.consumed_eq, hunread,
      hunread.part_ne_nil_iff⟩
  · intro u enc book sorted n hmax henc buffer w hw tokens lens e s' h
    obtain ⟨hf, he, -⟩ := CodeTable.encodes_of_build hmax henc
    obtain ⟨ts, rest, part, hcoded, hbytes, hlens, hlt, happ, hunwritten⟩ :=
      writeLengths_error he hf hw.wellFormed h
    exact ⟨ts, rest, part, hcoded, hbytes, hlens, hlt, happ, hunwritten, hunwritten.part_ne_nil_iff⟩

/-- A code with two symbols, 0 and 18. -/
def zeroLengths : Lengths := [1, 0, 0, 0, 0, 0, 0, 0, 0, 0, 0, 0, 0, 0, 0, 0, 0, 0, 2]

/-- One byte has the bits of a zero and the code for a run of them, and not the extra bits of the run.
Reading and writing both stop after these three bits. -/
theorem failed_lengths_extra : ∃ dec sorted enc sorted' r' s',
    LookupTable.build zeroLengths (.withCapacity 2, []) = .ok 2 (dec, sorted) ∧
    CodeTable.build zeroLengths (.withSize 19, []) = .ok 2 (enc, sorted') ∧
    readLengths dec zeroLengths 20 ⟨.ofBytes [0b10], .ofBuffer [3, 7], [9]⟩ =
      .error .insufficientInput r' ∧
    writeLengths enc zeroLengths [0, 28] 20 ⟨.ofBuffer [0], [9]⟩ = .error .insufficientOutput s' ∧
    r'.lens = [0] ∧ r'.sink.buffer = [0, 7] ∧ s'.lens = [0] ∧
    (∃ ts part, part ≠ [] ∧ Bits.ofBytes [0b10] = tokenBits zeroLengths ts ++ part ++ r'.reader.bits) ∧
    ∃ ts part, part ≠ [] ∧ s'.writer.bits = tokenBits zeroLengths ts ++ part := by
  have hdec : LookupTable.build zeroLengths (.withCapacity 2, []) =
      .ok 2 (⟨4, 2, #[some 0, some 18, some 0, none]⟩, _) := rfl
  have henc : CodeTable.build zeroLengths (.withSize 19, []) = .ok 2 (_, _) := rfl
  have hfirst : readToken ⟨4, 2, #[some 0, some 18, some 0, none]⟩ zeroLengths
      ⟨.ofBytes [0b10], .ofBuffer [3, 7], []⟩ =
      .ok (.length 0) ⟨⟨[], 1, 0b1, 7⟩, ⟨#[0], [7]⟩, [0]⟩ := rfl
  have hsecond : readToken ⟨4, 2, #[some 0, some 18, some 0, none]⟩ zeroLengths
      ⟨⟨[], 1, 0b1, 7⟩, ⟨#[0], [7]⟩, [0]⟩ =
      .error .insufficientInput ⟨⟨[], 1, 0, 5⟩, ⟨#[0], [7]⟩, [0]⟩ := rfl
  have hread : readLengths ⟨4, 2, #[some 0, some 18, some 0, none]⟩ zeroLengths 20
      ⟨.ofBytes [0b10], .ofBuffer [3, 7], [9]⟩ =
      .error .insufficientInput ⟨⟨[], 1, 0, 5⟩, ⟨#[0], [7]⟩, [0]⟩ := by
    rw [run_readLengths, readTokens_succ, run_bind_ok hfirst]
    exact run_bind_error ((congrFun (readTokens_succ 18) _).trans (run_bind_error hsecond))
  obtain ⟨ts, part, -, hsink, -, -, hbits, hcons, -, -⟩ :=
    (failed_lengths zeroLengths 20).1 _ _ _ _ _ (by decide) hdec _ _ .start _ _ _ _ hread
  obtain rfl : ts = [.length 0] :=
    List.map_injective_iff.mpr (fun _ _ => Token.toByte_inj) hsink.written_eq.symm
  obtain ⟨ts', rest, part', -, hbytes, hlens, -, happ, -, hiff⟩ :=
    (failed_lengths zeroLengths 20).2 _ _ _ _ _ (by decide) henc [0] _ .start [0, 28] [9]
      .insufficientOutput ⟨⟨#[], [0], 0b010, 3⟩, [0]⟩ rfl
  refine ⟨_, _, _, _, _, ⟨⟨#[], [0], 0b010, 3⟩, [0]⟩, hdec, henc, hread, rfl, rfl, rfl, rfl,
    ⟨_, part, ?_, hbits⟩, _, part', ?_, happ.bits_eq⟩
  · rintro rfl
    exact absurd hcons (by decide)
  · -- The zero is the only token before the failure, as there is one length.
    have hcount := length_expandAll hlens
    cases ts' with
    | nil => cases hlens
    | cons t ts' =>
      obtain ⟨hhead, htail⟩ := List.cons.inj hbytes
      obtain rfl : t = .length 0 := Token.toByte_inj hhead.symm
      cases ts' with
      | nil => exact hiff.mpr ⟨rfl, .repeatZeroLong 0, [], htail.symm, by decide, by decide, by decide⟩
      | cons t' ts' =>
        have hpos := t'.count_pos
        have hone : (Token.length 0).count = 1 := rfl
        rw [totalCount_cons, totalCount_cons, List.length_singleton] at hcount
        omega

end DeflateHeader
