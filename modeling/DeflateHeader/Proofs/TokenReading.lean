import DeflateHeader.Proofs.BitReading
import DeflateHeader.Proofs.Lookup
import DeflateHeader.Proofs.TokenLengths

/-!
# Reading tokens

`ReadsToken code s` lists every outcome that reading one token with a table for `code` can have,
with its cause in terms of the bits that are left (`readToken_run`).

From it follows what reading a sequence of tokens does. If it succeeds, it has read tokens that
cover the missing lengths (`readTokens_ok`). If the bits begin with such tokens and there is room
for them, it reads exactly these, or runs out of input when the longest code does not fit into what
is left at the start of some token (`readTokens_run`).
-/

namespace DeflateHeader

/-! ## Filling a sink -/

namespace ByteSink

variable {k k' k'' : ByteSink} {as bs : List UInt8}

/-- `k'` is `k` with the bytes `bs` written, and nothing else changed. -/
structure Gets (bs : List UInt8) (k k' : ByteSink) : Prop where
  le_room : bs.length ≤ k.room
  written_eq : k'.written.toList = k.written.toList ++ bs
  rest_eq : k'.rest = k.rest.drop bs.length

theorem Gets.refl (k : ByteSink) : Gets [] k k := ⟨Nat.zero_le _, by simp, by simp⟩

theorem Gets.room_eq (h : Gets bs k k') : k'.room = k.room - bs.length := by
  rw [room, h.rest_eq, List.length_drop, room]

theorem Gets.trans (h : Gets as k k') (h' : Gets bs k' k'') : Gets (as ++ bs) k k'' where
  le_room := by have := h.le_room; have := h'.le_room; rw [h.room_eq] at this; simp; omega
  written_eq := by rw [h'.written_eq, h.written_eq, List.append_assoc]
  rest_eq := by rw [h'.rest_eq, h.rest_eq, List.drop_drop, List.length_append]

/-- Whatever the writes, the buffer keeps its size and what is beyond them. -/
theorem Gets.buffer_eq (h : Gets bs k k') :
    k'.buffer = k.written.toList ++ bs ++ k.rest.drop bs.length := by
  rw [buffer, h.written_eq, h.rest_eq]

theorem push_ok (b : UInt8) (h : 0 < k.room) :
    ∃ k', push b k = .ok () k' ∧ Gets [b] k k' := by
  obtain ⟨written, rest⟩ := k
  cases rest with
  | nil => simp [room] at h
  | cons _ rest => exact ⟨⟨written.push b, rest⟩, rfl, h, by simp, by simp⟩

theorem gets_of_push {b : UInt8} (h : push b k = .ok () k') :
    Gets [b] k k' := by
  rcases Nat.eq_zero_or_pos k.room with hroom | hroom
  · obtain ⟨written, rest⟩ := k
    obtain rfl : rest = [] := List.length_eq_zero_iff.mp hroom
    cases h
  · obtain ⟨k'', hpush, hgets⟩ := push_ok b hroom
    rw [hpush] at h
    cases h
    exact hgets

/-- Further bits of the byte written last. -/
theorem orLast_ok {b : UInt8} (v : UInt8) (h : Gets [b] k k') :
    ∃ k'', orLast v k' = .ok () k'' ∧ Gets [b ||| v] k k'' := by
  obtain ⟨hroom, hwritten, hrest⟩ := h
  have hpush : k'.written = k.written.push b := by
    rw [← Array.toList_inj, hwritten, Array.toList_push]
  refine ⟨⟨k.written.push (b ||| v), k'.rest⟩, ?_, hroom, by simp, hrest⟩
  rw [orLast, run_bind_ok run_get, hpush, Array.back?_push, Array.pop_push]
  rfl

end ByteSink

namespace LengthReading

variable {α : Type} {s s' : LengthReading} {a : α} {e : Error}

theorem onReader_ok {act : EStateM Error BitReader α} {r : BitReader}
    (h : act s.reader = .ok a r) : onReader act s = .ok a { s with reader := r } :=
  focus_ok h

theorem onReader_error {act : EStateM Error BitReader α} {r : BitReader}
    (h : act s.reader = .error e r) : onReader act s = .error e { s with reader := r } :=
  focus_error h

theorem onSink_ok {act : EStateM Error ByteSink α} {k : ByteSink}
    (h : act s.sink = .ok a k) : onSink act s = .ok a { s with sink := k } :=
  focus_ok h

/-! ## One token -/

/-- The outcomes of reading one token, each with the state it leaves. -/
inductive ReadsToken (code : Lengths) (s : LengthReading) :
    EStateM.Result Error LengthReading Token → Prop
  | token {t : Token} {value : UInt8} {r : BitReader} {k : ByteSink}
      (hlook : code.maxLength ≤ s.reader.remaining) (hcoded : 0 < code.lengthOf t.symbol)
      (hbits : t.bits code <+: s.reader.bits) (hvalue : t.value? s.lens = some value)
      (hr : s.reader.Moves (t.bits code).length r) (hk : s.sink.Gets [t.toByte] k) :
      ReadsToken code s (.ok t ⟨r, k, s.lens ++ List.replicate t.count value⟩)
  | noLookahead (h : s.reader.remaining < code.maxLength) :
      ReadsToken code s (.error .insufficientInput s)
  | unknownCode {r : BitReader} (hlook : code.maxLength ≤ s.reader.remaining)
      (h : ∀ symbol, 0 < code.lengthOf symbol → ¬ code.codeBits symbol <+: s.reader.bits)
      (hr : s.reader.Moves 0 r) :
      ReadsToken code s (.error (.invalid .unknownCode) { s with reader := r })
  | noRoom {r : BitReader} (hlook : code.maxLength ≤ s.reader.remaining) (h : s.sink.room = 0)
      (hr : s.reader.Moves 0 r) :
      ReadsToken code s (.error .insufficientOutput { s with reader := r })
  | invalidSymbol {symbol : Nat} {r : BitReader} (hcoded : 0 < code.lengthOf symbol)
      (hbits : code.codeBits symbol <+: s.reader.bits) (h : 18 < symbol)
      (hr : s.reader.Moves (code.lengthOf symbol) r) :
      ReadsToken code s (.error (.invalid (.invalidSymbol symbol)) { s with reader := r })
  | noPrevious {r : BitReader} (hcoded : 0 < code.lengthOf 16)
      (hbits : code.codeBits 16 <+: s.reader.bits) (h : s.lens = [])
      (hr : s.reader.Moves (code.lengthOf 16) r) :
      ReadsToken code s (.error (.invalid .repeatWithoutPrevious) { s with reader := r })
  | noExtra {symbol width : Nat} {r : BitReader} (hcoded : 0 < code.lengthOf symbol)
      (hbits : code.codeBits symbol <+: s.reader.bits) (hw : Token.extraWidth? symbol = some width)
      (h : s.reader.remaining < code.lengthOf symbol + width)
      (hr : s.reader.Moves (code.lengthOf symbol) r) (hlook : code.maxLength ≤ s.reader.remaining) :
      ReadsToken code s (.error .insufficientInput { s with reader := r })

variable {table : LookupTable} {code : Lengths}

/-- The next symbol is the one whose code the bits begin with. -/
theorem nextSymbol_run (hd : table.Decodes code) (hf : code.Feasible) (hs : s.reader.WellFormed) :
    (s.reader.remaining < code.maxLength ∧ nextSymbol table s = .error .insufficientInput s) ∨
    code.maxLength ≤ s.reader.remaining ∧ ∃ r, s.reader.Moves 0 r ∧ code.maxLength ≤ r.cached ∧
      ((nextSymbol table s = .error (.invalid .unknownCode) { s with reader := r } ∧
        ∀ symbol, 0 < code.lengthOf symbol → ¬ code.codeBits symbol <+: s.reader.bits) ∨
      ∃ symbol, nextSymbol table s = .ok symbol { s with reader := r } ∧
        0 < code.lengthOf symbol ∧ code.codeBits symbol <+: s.reader.bits) := by
  have hmax : code.maxLength ≤ 32 := Nat.le_trans hf.maxLength_le (by decide)
  rcases Nat.lt_or_ge s.reader.remaining code.maxLength with hlt | hge
  · refine .inl ⟨hlt, ?_⟩
    unfold nextSymbol
    rw [hd.maxBits_eq, run_bind_error (onReader_error (BitReader.ensure_error hmax hlt))]
  · obtain ⟨r, he, hm, hc⟩ := BitReader.ensure_ok hs hmax hge
    refine .inr ⟨hge, r, hm, hc, ?_⟩
    have hbits : r.bits = s.reader.bits := by simpa using hm.bits_eq
    have hlen : code.maxLength ≤ s.reader.bits.length := by simpa using hge
    -- The lookahead shows the first bits, so a code agrees with it exactly if the bits begin so.
    have hkey : ∀ symbol, Bits.ofNat (code.lengthOf symbol)
        (Bits.toNat (s.reader.bits.take code.maxLength)) = code.codeBits symbol ↔
        code.codeBits symbol <+: s.reader.bits := fun symbol => by
      have hl := Lengths.lengthOf_le_maxLength code symbol
      rw [← Bits.take_ofNat hl, Bits.ofNat_toNat_of_length (by rw [List.length_take]; omega),
        List.take_take, Nat.min_eq_left hl, List.prefix_iff_eq_take, Lengths.length_codeBits]
      exact eq_comm
    have hpeek := BitReader.peek_run hmax hc
    unfold nextSymbol
    rw [hd.maxBits_eq, run_bind_ok (onReader_ok he),
      run_bind_ok (onReader_ok (s := { s with reader := r }) hpeek), hbits]
    cases hlook : table.lookup (Bits.toNat (s.reader.bits.take code.maxLength)) with
    | none =>
      refine .inl ⟨rfl, fun symbol hpos hpre => ?_⟩
      rw [(hd.lookup_iff _ symbol).mpr ⟨hpos, (hkey symbol).mpr hpre⟩] at hlook
      cases hlook
    | some symbol =>
      obtain ⟨hpos, hb⟩ := (hd.lookup_iff _ symbol).mp hlook
      exact .inr ⟨symbol, rfl, hpos, (hkey symbol).mp hb⟩

theorem accept_run {t : Token} {value : UInt8} (h : 0 < s.sink.room)
    (hv : t.value? s.lens = some value) :
    ∃ k, accept t s = .ok () ⟨s.reader, k, s.lens ++ List.replicate t.count value⟩ ∧
      s.sink.Gets [t.toByte] k := by
  obtain ⟨k, hp, hg⟩ := ByteSink.push_ok t.toByte h
  refine ⟨k, ?_, hg⟩
  unfold accept
  rw [run_bind_ok (onSink_ok hp), run_bind_ok run_get]
  simp only [Token.expand, hv]
  rfl

/-- What is left to read of a token after the code of its symbol. -/
def readExtra (symbol width : Nat) : EStateM Error LengthReading Token := do
  let extra ← onReader (BitReader.take width)
  match Token.ofSymbol symbol extra with
  | .error e => throw e
  | .ok token =>
    accept token
    return token

/-- The extra bits complete a token, if they are left. -/
theorem readExtra_run {symbol width : Nat} (hw : Token.extraWidth? symbol = some width)
    (hs : s.reader.WellFormed) (hroom : 0 < s.sink.room) (hprev : ¬ (symbol = 16 ∧ s.lens = [])) :
    (s.reader.remaining < width ∧ readExtra symbol width s = .error .insufficientInput s) ∨
    ∃ t value r k, Token.symbol t = symbol ∧ t.extraWidth = width ∧
      t.value? s.lens = some value ∧ Bits.ofNat width t.extra <+: s.reader.bits ∧
      s.reader.Moves width r ∧ s.sink.Gets [t.toByte] k ∧
      readExtra symbol width s = .ok t ⟨r, k, s.lens ++ List.replicate t.count value⟩ := by
  have hwidth : width ≤ 32 := Nat.le_trans (Token.extraWidth?_le hw).2 (by decide)
  rcases Nat.lt_or_ge s.reader.remaining width with hshort | hlong
  · exact .inl ⟨hshort, by rw [readExtra, run_bind_error (onReader_error
      (BitReader.take_error hwidth hshort))]⟩
  · obtain ⟨r, htake, hm⟩ := BitReader.take_ok hs hwidth hlong
    have hlen : (s.reader.bits.take width).length = width := by
      rw [List.length_take, BitReader.length_bits, Nat.min_eq_left hlong]
    have hextra := Bits.toNat_lt (s.reader.bits.take width)
    rw [hlen] at hextra
    obtain ⟨t, ht, hsym, hwid, hext⟩ := Token.exists_of_symbol hw hextra
    obtain ⟨value, hv⟩ : ∃ value, t.value? s.lens = some value :=
      Option.ne_none_iff_exists'.mp fun hnone =>
        hprev (hsym ▸ Token.value?_eq_none_iff.mp hnone)
    obtain ⟨k, hacc, hg⟩ := accept_run (s := { s with reader := r }) hroom hv
    refine .inr ⟨t, value, r, k, hsym, hwid, hv, ?_, hm, hg, ?_⟩
    · rw [hext, Bits.ofNat_toNat_of_length hlen]
      exact List.take_prefix _ _
    · unfold readExtra
      rw [run_bind_ok (onReader_ok htake)]
      simp only [ht]
      rw [run_bind_ok hacc]
      rfl

/-- Reading a token has one of the listed outcomes. -/
theorem readToken_run (hd : table.Decodes code) (hf : code.Feasible) (hs : s.reader.WellFormed) :
    ReadsToken code s (readToken table code s) := by
  obtain ⟨hlt, hn⟩ | ⟨hge, r, hm, hc, ⟨hn, hno⟩ | ⟨symbol, hn, hpos, hpre⟩⟩ :=
    nextSymbol_run hd hf hs
  · unfold readToken
    rw [run_bind_error hn]
    exact .noLookahead hlt
  · unfold readToken
    rw [run_bind_error hn]
    exact .unknownCode hge hno hm
  unfold readToken
  rw [run_bind_ok hn, run_bind_ok run_get]
  by_cases hroom : s.sink.room = 0
  · simp only [hroom, if_true]
    exact .noRoom hge hroom hm
  simp only [hroom, if_false]
  have hle := Lengths.lengthOf_le_maxLength code symbol
  have hmax : code.maxLength ≤ 32 := Nat.le_trans hf.maxLength_le (by decide)
  obtain ⟨r', hdrop, hm', -⟩ := BitReader.drop_run (n := code.lengthOf symbol) hm.wellFormed
    (by omega) (by omega)
  have hmoves : s.reader.Moves (code.lengthOf symbol) r' := by simpa using hm.trans hm'
  have hlt := Lengths.lt_length_of_pos hpos
  have hcode : dropCode code symbol { s with reader := r } = .ok () { s with reader := r' } := by
    rw [Lengths.lengthOf_eq_getElem hlt] at hdrop
    unfold dropCode
    rw [List.getElem?_eq_getElem hlt]
    exact onReader_ok hdrop
  rw [run_bind_ok hcode]
  cases hw : Token.extraWidth? symbol with
  | none => exact .invalidSymbol hpos hpre (Token.lt_of_extraWidth?_eq_none hw) hmoves
  | some width =>
    simp only
    rw [run_bind_ok run_get]
    by_cases hprev : symbol = 16 ∧ s.lens = []
    · rw [if_pos hprev]
      obtain ⟨rfl, hnil⟩ := hprev
      exact .noPrevious hpos hpre hnil hmoves
    rw [if_neg hprev]
    show ReadsToken code s (readExtra symbol width { s with reader := r' })
    obtain ⟨hshort, hrun⟩ | ⟨t, value, r'', k, rfl, rfl, hv, hextra, hm'', hg, hrun⟩ :=
      readExtra_run (s := { s with reader := r' }) hw hmoves.wellFormed (Nat.pos_of_ne_zero hroom) hprev
    · rw [hrun]
      refine .noExtra hpos hpre hw ?_ hmoves hge
      have := hmoves.remaining_eq
      have := hmoves.le_remaining
      dsimp only at hshort
      omega
    · rw [hrun]
      obtain ⟨rest, hrest⟩ := hpre
      refine .token hge hpos ?_ hv ?_ hg
      · rw [Token.bits, ← hrest, List.prefix_append_right_inj,
          ← hmoves.bits_of_append hrest.symm (Lengths.length_codeBits code t.symbol)]
        exact hextra
      · rw [Token.length_bits]
        exact hmoves.trans hm''

/-- A token that the bits begin with is read, unless the lookahead runs out of bits or the sink is
full. -/
theorem readToken_bits {t : Token} {value : UInt8} (hd : table.Decodes code) (hf : code.Feasible)
    (hs : s.reader.WellFormed) (ht : 0 < code.lengthOf t.symbol)
    (hbits : t.bits code <+: s.reader.bits) (hvalue : t.value? s.lens = some value) :
    (code.maxLength ≤ s.reader.remaining ∧ ∃ r k,
      readToken table code s = .ok t ⟨r, k, s.lens ++ List.replicate t.count value⟩ ∧
      s.reader.Moves (t.bits code).length r ∧ s.sink.Gets [t.toByte] k) ∨
    (s.reader.remaining < code.maxLength ∧
      readToken table code s = .error .insufficientInput s) ∨
    (s.sink.room = 0 ∧
      ∃ r, readToken table code s = .error .insufficientOutput { s with reader := r }) := by
  have hcode : code.codeBits t.symbol <+: s.reader.bits := (List.prefix_append _ _).trans hbits
  have hsym : ∀ symbol, 0 < code.lengthOf symbol → code.codeBits symbol <+: s.reader.bits →
      symbol = t.symbol := fun symbol hp hb => Lengths.eq_of_isPrefix hf hp ht hb hcode
  -- Each of the other outcomes contradicts that the token is there.
  have hrun := readToken_run hd hf hs
  generalize readToken table code s = result at hrun
  cases hrun with
  | token hlook hcoded hbits' hvalue' hr hk =>
    obtain rfl := Token.eq_of_bits_isPrefix hf hcoded ht hbits' hbits
    obtain rfl := Option.some.inj (hvalue'.symm.trans hvalue)
    exact .inl ⟨hlook, _, _, rfl, hr, hk⟩
  | noLookahead h => exact .inr (.inl ⟨h, rfl⟩)
  | unknownCode hlook h hr => exact absurd hcode (h t.symbol ht)
  | noRoom hlook h hr => exact .inr (.inr ⟨h, _, rfl⟩)
  | invalidSymbol hcoded hbits' h hr =>
    have := hsym _ hcoded hbits'
    have := t.symbol_le
    omega
  | noPrevious hcoded hbits' h hr =>
    rw [Token.value?_eq_none_iff.mpr ⟨(hsym 16 hcoded hbits').symm, h⟩] at hvalue
    cases hvalue
  | noExtra hcoded hbits' hw h hr =>
    have hlen := hbits.length_le
    rw [Token.length_bits, BitReader.length_bits] at hlen
    obtain rfl := hsym _ hcoded hbits'
    rw [Token.extraWidth?_symbol] at hw
    cases hw
    omega

/-! ## A sequence of tokens -/

/-- `s'` is `s` after the tokens `ts` were read from it. -/
structure ReadsTokens (code : Lengths) (ts : List Token) (s s' : LengthReading) : Prop where
  coded : ∀ t ∈ ts, 0 < code.lengthOf t.symbol
  bits : tokenBits code ts <+: s.reader.bits
  reader : s.reader.Moves (tokenBits code ts).length s'.reader
  look : Lookahead code ts s'.reader.remaining
  sink : s.sink.Gets (ts.map Token.toByte) s'.sink
  lens : expandAll s.lens ts = some s'.lens

theorem ReadsTokens.nil (h : s.reader.WellFormed) : ReadsTokens code [] s s where
  coded := by simp
  bits := List.nil_prefix
  reader := .refl h
  look k hk := absurd hk (Nat.not_lt_zero k)
  sink := .refl _
  lens := rfl

theorem ReadsTokens.cons {t : Token} {ts : List Token} {value : UInt8} {r : BitReader} {k : ByteSink}
    (hlook : code.maxLength ≤ s.reader.remaining) (hcoded : 0 < code.lengthOf t.symbol)
    (hbits : t.bits code <+: s.reader.bits) (hvalue : t.value? s.lens = some value)
    (hr : s.reader.Moves (t.bits code).length r) (hk : s.sink.Gets [t.toByte] k)
    (h : ReadsTokens code ts ⟨r, k, s.lens ++ List.replicate t.count value⟩ s') :
    ReadsTokens code (t :: ts) s s' := by
  have hmoves : s.reader.Moves (tokenBits code (t :: ts)).length s'.reader := by
    simpa using hr.trans h.reader
  refine ⟨?_, ?_, hmoves, lookahead_cons.mpr ⟨?_, h.look⟩, hk.trans h.sink, ?_⟩
  · intro t' ht'
    rcases List.mem_cons.mp ht' with rfl | ht'
    · exact hcoded
    · exact h.coded t' ht'
  · obtain ⟨rest, hrest⟩ := hbits
    rw [tokenBits_cons, ← hrest, List.prefix_append_right_inj,
      ← hr.bits_of_append hrest.symm rfl]
    exact h.bits
  · have := hmoves.remaining_eq
    have := hmoves.le_remaining
    omega
  · rw [expandAll_cons_of_some hvalue, h.lens]

/-- A successful run has read tokens that cover the missing lengths. -/
theorem readTokens_ok (hd : table.Decodes code) (hf : code.Feasible) {missing n : Nat}
    (hs : s.reader.WellFormed) (h : readTokens table code missing s = .ok n s') :
    ∃ ts, Covers missing ts ∧ n = ts.length ∧ ReadsTokens code ts s s' := by
  replace h := tokenRun_of_readTokens h
  induction h with
  | done s => exact ⟨[], rfl, rfl, .nil hs⟩
  | token hstep hrest ih =>
    have hrun := readToken_run hd hf hs
    rw [hstep] at hrun
    cases hrun with
    | token hlook hcoded hbits hvalue hr hk =>
      obtain ⟨ts, hcov, rfl, hall⟩ := ih hr.wellFormed
      exact ⟨_ :: ts, hcov, rfl, .cons hlook hcoded hbits hvalue hr hk hall⟩

/-- A run that fails has read tokens that do not cover the missing lengths, and fails at the next
one. -/
theorem readTokens_error (hd : table.Decodes code) (hf : code.Feasible) {missing : Nat}
    (hs : s.reader.WellFormed) (h : readTokens table code missing s = .error e s') :
    ∃ ts s₁, totalCount ts < missing ∧ ReadsTokens code ts s s₁ ∧
      ReadsToken code s₁ (.error e s') := by
  induction missing using Nat.strongRecOn generalizing s with
  | ind missing ih =>
    cases missing with
    | zero =>
      rw [readTokens_zero] at h
      cases h
    | succ missing =>
      rw [readTokens_succ] at h
      have hrun := readToken_run hd hf hs
      rcases error_of_bind h with hfail | ⟨t, s₁, hstep, h⟩
      · rw [hfail] at hrun
        exact ⟨[], s, Nat.succ_pos missing, .nil hs, hrun⟩
      rw [hstep] at hrun
      cases hrun with
      | token hlook hcoded hbits hvalue hr hk =>
        rcases error_of_bind h with hrest | ⟨n, s₂, -, h⟩
        · have hpos := t.count_pos
          obtain ⟨ts, s₂, hlt, hall, hfail⟩ := ih (missing + 1 - t.count) (by omega) hr.wellFormed hrest
          exact ⟨t :: ts, s₂, by rw [totalCount_cons]; omega, .cons hlook hcoded hbits hvalue hr hk hall, hfail⟩
        · cases h

/-- What happens to bits that begin with tokens which cover the missing lengths: the tokens are
read, unless the lookahead runs out of bits before one of them. -/
theorem readTokens_run (hd : table.Decodes code) (hf : code.Feasible) {missing : Nat}
    {ts : List Token} {lens : Lengths} (hs : s.reader.WellFormed) (hcov : Covers missing ts)
    (hcoded : ∀ t ∈ ts, 0 < code.lengthOf t.symbol) (hbits : tokenBits code ts <+: s.reader.bits)
    (hlens : expandAll s.lens ts = some lens) (hroom : ts.length ≤ s.sink.room) :
    (Lookahead code ts (s.reader.remaining - (tokenBits code ts).length) ∧
      ∃ s', readTokens table code missing s = .ok ts.length s' ∧ ReadsTokens code ts s s') ∨
    (¬ Lookahead code ts (s.reader.remaining - (tokenBits code ts).length) ∧
      ∃ s', readTokens table code missing s = .error .insufficientInput s') := by
  induction ts generalizing missing s with
  | nil =>
    cases missing with
    | succ missing => exact hcov.elim
    | zero =>
      exact .inl ⟨fun k hk => absurd hk (Nat.not_lt_zero k), s, readTokens_zero s, .nil hs⟩
  | cons t ts ih =>
    cases missing with
    | zero => cases hcov
    | succ missing =>
      obtain ⟨value, hvalue, hlens⟩ := expandAll_cons_eq_some hlens
      rw [readTokens_succ, lookahead_cons]
      have hlen : (tokenBits code (t :: ts)).length ≤ s.reader.remaining := by
        simpa using hbits.length_le
      obtain ⟨rest, hrest⟩ := hbits
      rw [tokenBits_cons, List.append_assoc] at hrest
      rcases readToken_bits hd hf hs (hcoded t (by simp)) ⟨_, hrest⟩ hvalue with
        ⟨hlook, r, k, hstep, hr, hk⟩ | ⟨hlook, hstep⟩ | ⟨hfull, -⟩
      · have hrem := hr.remaining_eq
        have hkroom := hk.room_eq
        have hrest' : s.reader.remaining - (tokenBits code (t :: ts)).length =
            r.remaining - (tokenBits code ts).length := by
          rw [tokenBits_cons, List.length_append]
          omega
        rw [run_bind_ok hstep, hrest']
        rcases ih (s := ⟨r, k, s.lens ++ List.replicate t.count value⟩) hr.wellFormed hcov
            (fun t ht => hcoded t (by simp [ht]))
            ⟨rest, (hr.bits_of_append hrest.symm rfl).symm⟩ hlens
            (by rw [List.length_cons] at hroom; rw [List.length_singleton] at hkroom; dsimp only; omega)
          with ⟨hl, s', hok, hall⟩ | ⟨hl, s', herr⟩
        · rw [tokenBits_cons, List.length_append] at hlen
          refine .inl ⟨⟨?_, hl⟩, s', ?_, .cons hlook (hcoded t (by simp)) ⟨_, hrest⟩ hvalue hr hk hall⟩
          · rw [tokenBits_cons, List.length_append]
            omega
          · rw [run_bind_ok hok]
            rfl
        · exact .inr ⟨fun h => hl h.2, s', run_bind_error herr⟩
      · exact .inr ⟨fun hl => by have := hl.1; omega, s, run_bind_error hstep⟩
      · rw [hfull] at hroom
        exact absurd hroom (Nat.not_succ_le_zero _)

/-- A sink with too little room gets as many of the tokens as it has room for. -/
theorem readTokens_full (hd : table.Decodes code) (hf : code.Feasible) {missing : Nat}
    {ts : List Token} {lens : Lengths} (hs : s.reader.WellFormed) (hcov : Covers missing ts)
    (hcoded : ∀ t ∈ ts, 0 < code.lengthOf t.symbol) (hbits : tokenBits code ts <+: s.reader.bits)
    (hlook : Lookahead code ts (s.reader.remaining - (tokenBits code ts).length))
    (hlens : expandAll s.lens ts = some lens) (hroom : s.sink.room < ts.length) :
    ∃ s', readTokens table code missing s = .error .insufficientOutput s' ∧
      s.sink.Gets ((ts.take s.sink.room).map Token.toByte) s'.sink := by
  induction ts generalizing missing s with
  | nil => exact absurd hroom (Nat.not_lt_zero _)
  | cons t ts ih =>
    cases missing with
    | zero => cases hcov
    | succ missing =>
      obtain ⟨value, hvalue, hlens⟩ := expandAll_cons_eq_some hlens
      have hlen : (tokenBits code (t :: ts)).length ≤ s.reader.remaining := by
        simpa using hbits.length_le
      obtain ⟨hlook₁, hlook⟩ := lookahead_cons.mp hlook
      obtain ⟨rest, hrest⟩ := hbits
      rw [tokenBits_cons, List.append_assoc] at hrest
      rw [readTokens_succ]
      rcases readToken_bits hd hf hs (hcoded t (by simp)) ⟨_, hrest⟩ hvalue with
        ⟨-, r, k, hstep, hr, hk⟩ | ⟨hshort, -⟩ | ⟨hfull, r, hstep⟩
      · have hrem := hr.remaining_eq
        have hkroom := hk.room_eq
        have hle := hk.le_room
        rw [List.length_singleton] at hkroom hle
        rw [List.length_cons] at hroom
        have hrest' : s.reader.remaining - (tokenBits code (t :: ts)).length =
            r.remaining - (tokenBits code ts).length := by
          rw [tokenBits_cons, List.length_append]
          omega
        obtain ⟨s', herr, hgets⟩ := ih (s := ⟨r, k, s.lens ++ List.replicate t.count value⟩)
          hr.wellFormed hcov (fun t ht => hcoded t (by simp [ht]))
          ⟨rest, (hr.bits_of_append hrest.symm rfl).symm⟩ (hrest' ▸ hlook) hlens
          (by dsimp only; omega)
        have hroom' : s.sink.room = k.room + 1 := by omega
        refine ⟨s', by rw [run_bind_ok hstep, run_bind_error herr], ?_⟩
        rw [hroom', List.take_succ_cons, List.map_cons]
        exact hk.trans hgets
      · omega
      · refine ⟨_, run_bind_error hstep, ?_⟩
        rw [hfull]
        exact .refl _

/-- The lengths that were there before play no role. -/
theorem run_readLengths (target : Nat) :
    readLengths table code target s = readTokens table code target { s with lens := [] } := rfl

end LengthReading
end DeflateHeader
