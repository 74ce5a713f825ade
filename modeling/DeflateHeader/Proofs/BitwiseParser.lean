import DeflateHeader.Proofs.Streams

/-!
# Reading a header bit by bit

`Bitwise.parse` reads a dynamic header the plain way, without tables and without a cache: a code is
read one bit after the other, the most significant one first, until the number that was read is the
code of a symbol of that length.

It finds exactly the valid headers (`Bitwise.parse_bits`, `Bitwise.parse_sound`). The decoder
returns what it finds if the longest code fits into what is left at the start of each token, and
otherwise fails (`Decoding.decodeHeader_ok_iff_parse`).
-/

namespace DeflateHeader

namespace Bitwise

/-! ## The parser -/

/-- The number in the next `n` bits, and what follows them. -/
def field (n : Nat) (bits : List Bool) : Option (Nat × List Bool) :=
  if n ≤ bits.length then some (Bits.toNat (bits.take n), bits.drop n) else none

/-- The symbol whose code has `length` bits and is the number `value`. -/
def symbolOf? (code : Lengths) (length value : Nat) : Option Nat :=
  (List.range code.length).find? fun s => code.lengthOf s = length ∧ code.codeNumber s = value

/-- Reads bits until they are a code, after `length` bits with the value `value`. -/
def symbol (code : Lengths) (length value : Nat) : List Bool → Option (Nat × List Bool)
  | [] => none
  | b :: bits =>
    match symbolOf? code (length + 1) (2 * value + b.toNat) with
    | some s => some (s, bits)
    | none => symbol code (length + 1) (2 * value + b.toNat) bits

/-- The lengths of `n` symbols of the code-length alphabet. -/
def codeLengths : Nat → List Bool → Option (List UInt8 × List Bool)
  | 0, bits => some ([], bits)
  | n + 1, bits => do
    let (len, bits) ← field 3 bits
    let (sent, bits) ← codeLengths n bits
    return (UInt8.ofNat len :: sent, bits)

/-- A symbol and its extra bits. -/
def token (code : Lengths) (bits : List Bool) : Option (Token × List Bool) := do
  let (s, bits) ← symbol code 0 0 bits
  let width ← Token.extraWidth? s
  let (extra, bits) ← field width bits
  let t ← Token.ofSymbol? s extra
  return (t, bits)

/-- Reads tokens until there are `total` lengths, after those in `lens`. -/
def tokens (code : Lengths) (total : Nat) (lens : Lengths) (bits : List Bool) :
    Option (List Token × Lengths × List Bool) :=
  if total ≤ lens.length then some ([], lens, bits)
  else do
    let (t, bits) ← token code bits
    let value ← t.value? lens
    let (ts, lens, bits) ← tokens code total (lens ++ List.replicate t.count value) bits
    return (t :: ts, lens, bits)
termination_by total - lens.length
decreasing_by
  have := t.count_pos
  rw [List.length_append, List.length_replicate]
  omega

/-- A header that was read. -/
structure Parsed where
  header : Header
  /-- The lengths of both main alphabets. -/
  lens : Lengths
  /-- The bits that follow the header. -/
  rest : List Bool

/-- Reads a header. -/
def parse (bits : List Bool) : Option Parsed := do
  let (hlit, bits) ← field 5 bits
  let (hdist, bits) ← field 5 bits
  let (hclen, bits) ← field 4 bits
  guard (hlit + 257 ≤ 286 ∧ hdist + 1 ≤ 30)
  let (sent, bits) ← codeLengths (hclen + 4) bits
  guard ((Lengths.ofSent sent).kraft ≤ 2 ^ maxCodeBits)
  let (ts, lens, rest) ← tokens (.ofSent sent) (hlit + 257 + (hdist + 1)) [] bits
  guard (Lengths.kraft (lens.take (hlit + 257)) ≤ 2 ^ maxCodeBits)
  guard (Lengths.kraft (lens.drop (hlit + 257)) ≤ 2 ^ maxCodeBits)
  return ⟨⟨hlit, hdist, hclen, sent, ts⟩, lens, rest⟩

variable {code lens lens' : Lengths} {bits rest done : List Bool} {n v s total : Nat}

/-! ## Fields -/

theorem field_ofNat (h : v < 2 ^ n) (rest : List Bool) :
    field n (Bits.ofNat n v ++ rest) = some (v, rest) := by
  have hlen : (Bits.ofNat n v).length = n := Bits.length_ofNat n v
  unfold field
  rw [if_pos (by rw [List.length_append, hlen]; exact Nat.le_add_right n _),
    List.take_left' hlen, List.drop_left' hlen, Bits.toNat_ofNat, Nat.mod_eq_of_lt h]

theorem field_eq_some (h : field n bits = some (v, rest)) :
    v < 2 ^ n ∧ bits = Bits.ofNat n v ++ rest := by
  unfold field at h
  split at h
  · rename_i hle
    cases h
    have hlen : (bits.take n).length = n := by rw [List.length_take, Nat.min_eq_left hle]
    have hlt := Bits.toNat_lt (bits.take n)
    rw [hlen] at hlt
    exact ⟨hlt, by rw [Bits.ofNat_toNat_of_length hlen, List.take_append_drop]⟩
  · cases h

/-! ## Symbols -/

/-- Bits that were read, as a number: the most significant bit came first. -/
theorem toNat_reverse_concat (done : List Bool) (b : Bool) :
    Bits.toNat (done ++ [b]).reverse = 2 * Bits.toNat done.reverse + b.toNat := by
  rw [List.reverse_append, List.reverse_singleton, List.singleton_append, Bits.toNat, Nat.add_comm]

theorem codeBits_eq_iff (hf : code.Feasible) (hs : 0 < code.lengthOf s) :
    code.codeBits s = done ↔
      code.lengthOf s = done.length ∧ code.codeNumber s = Bits.toNat done.reverse := by
  constructor
  · rintro rfl
    rw [Lengths.length_codeBits, Lengths.codeBits, List.reverse_reverse, Bits.toNat_ofNat,
      Nat.mod_eq_of_lt (Lengths.codeNumber_lt hf hs)]
    exact ⟨rfl, rfl⟩
  · rintro ⟨hlen, hval⟩
    rw [Lengths.codeBits, hval, Bits.ofNat_toNat_of_length (by rw [List.length_reverse, hlen]),
      List.reverse_reverse]

/-- A symbol is found when the bits that were read are its code. -/
theorem symbolOf?_eq_some_iff (hf : code.Feasible) (hd : done ≠ []) :
    symbolOf? code done.length (Bits.toNat done.reverse) = some s ↔
      0 < code.lengthOf s ∧ code.codeBits s = done := by
  have hpos : 0 < done.length := List.length_pos_iff.mpr hd
  have hmatch : ∀ s, (code.lengthOf s = done.length ∧ code.codeNumber s = Bits.toNat done.reverse) ↔
      0 < code.lengthOf s ∧ code.codeBits s = done := by
    intro s
    constructor
    · intro h
      have hs : 0 < code.lengthOf s := by omega
      exact ⟨hs, (codeBits_eq_iff hf hs).mpr h⟩
    · rintro ⟨hs, h⟩
      exact (codeBits_eq_iff hf hs).mp h
  have hfound : ∀ {s}, symbolOf? code done.length (Bits.toNat done.reverse) = some s →
      0 < code.lengthOf s ∧ code.codeBits s = done := by
    intro s h
    have := List.find?_some h
    exact (hmatch s).mp (of_decide_eq_true this)
  constructor
  · exact hfound
  · intro h
    -- Some symbol is found, and no other one has the same code.
    cases hfind : symbolOf? code done.length (Bits.toNat done.reverse) with
    | none =>
      have hnot := List.find?_eq_none.mp hfind s
        (List.mem_range.mpr (Lengths.lt_length_of_pos h.1))
      exact absurd (decide_eq_true ((hmatch s).mpr h)) hnot
    | some s' =>
      have h' := hfound hfind
      rw [Lengths.eq_of_codeBits_isPrefix hf h'.1 h.1 (by rw [h.2, h'.2])]

theorem symbol_cons (b : Bool) :
    symbol code done.length (Bits.toNat done.reverse) (b :: bits) =
      match symbolOf? code (done ++ [b]).length (Bits.toNat (done ++ [b]).reverse) with
      | some s => some (s, bits)
      | none => symbol code (done ++ [b]).length (Bits.toNat (done ++ [b]).reverse) bits := by
  rw [toNat_reverse_concat, List.length_append, List.length_singleton, symbol]

/-- The rest of a code completes the bits of it that were read. -/
theorem symbol_run (hf : code.Feasible) (hs : 0 < code.lengthOf s) {todo : List Bool}
    (hcode : code.codeBits s = done ++ todo) (htodo : todo ≠ []) (rest : List Bool) :
    symbol code done.length (Bits.toNat done.reverse) (todo ++ rest) = some (s, rest) := by
  induction todo generalizing done with
  | nil => exact absurd rfl htodo
  | cons b todo ih =>
    have hsplit : code.codeBits s = done ++ [b] ++ todo := by simp [hcode]
    have hne : done ++ [b] ≠ [] := by simp
    rw [List.cons_append, symbol_cons]
    cases hfind : symbolOf? code (done ++ [b]).length (Bits.toNat (done ++ [b]).reverse) with
    | some s' =>
      obtain ⟨hs', hcode'⟩ := (symbolOf?_eq_some_iff hf hne).mp hfind
      have heq : s' = s := by
        refine Lengths.eq_of_codeBits_isPrefix hf hs' hs ?_
        rw [hcode', hsplit]
        exact List.prefix_append _ _
      subst heq
      rw [hcode'] at hsplit
      obtain rfl : todo = [] := List.append_right_eq_self.mp hsplit.symm
      rfl
    | none =>
      refine ih hsplit ?_
      rintro rfl
      rw [(symbolOf?_eq_some_iff hf hne).mpr ⟨hs, by rw [hsplit, List.append_nil]⟩] at hfind
      cases hfind

theorem symbol_codeBits (hf : code.Feasible) (hs : 0 < code.lengthOf s) (rest : List Bool) :
    symbol code 0 0 (code.codeBits s ++ rest) = some (s, rest) := by
  have hcode : code.codeBits s = [] ++ code.codeBits s := rfl
  refine symbol_run hf hs hcode (fun hnil => ?_) rest
  have := congrArg List.length hnil
  rw [Lengths.length_codeBits, List.length_nil] at this
  omega

theorem symbol_inv (hf : code.Feasible)
    (h : symbol code done.length (Bits.toNat done.reverse) bits = some (s, rest)) :
    0 < code.lengthOf s ∧ done ++ bits = code.codeBits s ++ rest := by
  induction bits generalizing done with
  | nil => cases h
  | cons b bits ih =>
    rw [symbol_cons] at h
    cases hfind : symbolOf? code (done ++ [b]).length (Bits.toNat (done ++ [b]).reverse) with
    | some s' =>
      rw [hfind] at h
      cases h
      obtain ⟨hs, hcode⟩ := (symbolOf?_eq_some_iff hf (by simp)).mp hfind
      exact ⟨hs, by rw [hcode]; simp⟩
    | none =>
      rw [hfind] at h
      obtain ⟨hs, hcode⟩ := ih h
      exact ⟨hs, by rw [← hcode]; simp⟩

/-- What is read bit by bit is a code. -/
theorem symbol_eq_some (hf : code.Feasible) (h : symbol code 0 0 bits = some (s, rest)) :
    0 < code.lengthOf s ∧ bits = code.codeBits s ++ rest :=
  have hstart : symbol code ([] : List Bool).length (Bits.toNat ([] : List Bool).reverse) bits =
      some (s, rest) := h
  symbol_inv hf hstart

/-! ## What comes before the tokens -/

theorem codeLengths_lengthBits {sent : List UInt8} (hs : ∀ len ∈ sent, len.toNat ≤ 7)
    (rest : List Bool) :
    codeLengths sent.length (Header.lengthBits sent ++ rest) = some (sent, rest) := by
  induction sent with
  | nil => rfl
  | cons len sent ih =>
    have hlt : len.toNat < 2 ^ 3 := Nat.lt_of_le_of_lt (hs len (by simp)) (by decide)
    rw [List.length_cons, Header.lengthBits_cons, List.append_assoc, codeLengths, field_ofNat hlt]
    simp only [Option.bind_eq_bind, Option.bind_some, ih fun v hv => hs v (by simp [hv])]
    simp

theorem codeLengths_eq_some {sent : List UInt8} (h : codeLengths n bits = some (sent, rest)) :
    sent.length = n ∧ (∀ len ∈ sent, len.toNat ≤ 7) ∧ bits = Header.lengthBits sent ++ rest := by
  induction n generalizing bits sent with
  | zero =>
    cases h
    simp
  | succ n ih =>
    simp only [codeLengths, Option.bind_eq_bind, Option.bind_eq_some_iff, Prod.exists] at h
    obtain ⟨v, bits₁, hfield, sent₁, bits₂, hsent, heq⟩ := h
    cases heq
    obtain ⟨hlt, rfl⟩ := field_eq_some hfield
    obtain ⟨hlen, hle, rfl⟩ := ih hsent
    have hv : (UInt8.ofNat v).toNat = v := by
      rw [UInt8.toNat_ofNat']
      omega
    refine ⟨by rw [List.length_cons, hlen], ?_, by rw [Header.lengthBits_cons, hv, List.append_assoc]⟩
    intro len hm
    rcases List.mem_cons.mp hm with rfl | hm
    · rw [hv]
      omega
    · exact hle len hm

/-! ## Tokens -/

variable {t : Token} {ts : List Token}

theorem token_bits (hf : code.Feasible) (ht : 0 < code.lengthOf t.symbol) (rest : List Bool) :
    token code (t.bits code ++ rest) = some (t, rest) := by
  unfold token
  rw [Token.bits, List.append_assoc, symbol_codeBits hf ht]
  simp only [Option.bind_eq_bind, Option.bind_some, Token.extraWidth?_symbol,
    field_ofNat t.extra_lt, Token.ofSymbol?_symbol]
  rfl

theorem token_eq_some (hf : code.Feasible) (h : token code bits = some (t, rest)) :
    0 < code.lengthOf t.symbol ∧ bits = t.bits code ++ rest := by
  simp only [token, Option.bind_eq_bind, Option.bind_eq_some_iff, Prod.exists] at h
  obtain ⟨s, bits₁, hsymbol, width, hwidth, extra, bits₂, hfield, t', htoken, heq⟩ := h
  cases heq
  obtain ⟨hs, rfl⟩ := symbol_eq_some hf hsymbol
  obtain ⟨hlt, rfl⟩ := field_eq_some hfield
  obtain ⟨t', hof, rfl, rfl, rfl⟩ := Token.exists_of_symbol hwidth hlt
  have heq : t' = t := by
    rw [Token.ofSymbol?_symbol] at htoken
    exact Option.some.inj htoken
  subst heq
  exact ⟨hs, by rw [Token.bits, List.append_assoc]⟩

theorem tokens_tokenBits (hf : code.Feasible) (hcov : Covers (total - lens.length) ts)
    (hcoded : ∀ t ∈ ts, 0 < code.lengthOf t.symbol) (hexp : expandAll lens ts = some lens')
    (rest : List Bool) :
    tokens code total lens (tokenBits code ts ++ rest) = some (ts, lens', rest) := by
  induction ts generalizing lens with
  | nil =>
    have hle : total ≤ lens.length := by
      by_contra hlt
      obtain ⟨m, hm⟩ := Nat.exists_eq_succ_of_ne_zero (Nat.sub_ne_zero_of_lt (Nat.lt_of_not_le hlt))
      rw [hm] at hcov
      exact hcov
    cases hexp
    rw [tokens, if_pos hle]
    rfl
  | cons t ts ih =>
    have hlt : ¬ total ≤ lens.length := fun hle => by
      rw [Nat.sub_eq_zero_of_le hle] at hcov
      cases hcov
    rw [covers_cons (Nat.sub_pos_of_lt (Nat.lt_of_not_le hlt))] at hcov
    obtain ⟨value, hvalue, hexp⟩ := expandAll_cons_eq_some hexp
    have hrest : tokens code total (lens ++ List.replicate t.count value)
        (tokenBits code ts ++ rest) = some (ts, lens', rest) :=
      ih (by rwa [List.length_append, List.length_replicate, ← Nat.sub_sub])
        (fun t' ht' => hcoded t' (by simp [ht'])) hexp
    rw [tokens, if_neg hlt, tokenBits_cons, List.append_assoc, token_bits hf (hcoded t (by simp))]
    simp only [Option.bind_eq_bind, Option.bind_some, hvalue, hrest]
    rfl

/-- What is read until there are enough lengths are tokens that cover the missing ones. -/
theorem tokens_eq_some (hf : code.Feasible) (h : tokens code total lens bits = some (ts, lens', rest)) :
    Covers (total - lens.length) ts ∧ (∀ t ∈ ts, 0 < code.lengthOf t.symbol) ∧
      expandAll lens ts = some lens' ∧ bits = tokenBits code ts ++ rest := by
  induction hm : total - lens.length using Nat.strongRecOn generalizing lens bits ts with
  | ind missing ih =>
    rw [tokens] at h
    by_cases hle : total ≤ lens.length
    · rw [if_pos hle] at h
      cases h
      rw [← hm, Nat.sub_eq_zero_of_le hle]
      exact ⟨rfl, by simp, rfl, rfl⟩
    · rw [if_neg hle] at h
      simp only [Option.bind_eq_bind, Option.bind_eq_some_iff, Prod.exists] at h
      obtain ⟨t, bits₁, htoken, value, hvalue, ts₁, lens₁, bits₂, hrest, heq⟩ := h
      cases heq
      obtain ⟨ht, rfl⟩ := token_eq_some hf htoken
      have hlen : total - (lens ++ List.replicate t.count value).length = missing - t.count := by
        rw [List.length_append, List.length_replicate, ← Nat.sub_sub, hm]
      have hpos : 0 < missing := by omega
      have hcount := t.count_pos
      obtain ⟨hcov, hcoded, hexp, rfl⟩ := ih (missing - t.count) (by omega) hrest hlen
      refine ⟨(covers_cons hpos).mpr hcov, ?_, by rw [expandAll_cons_of_some hvalue, hexp],
        by rw [tokenBits_cons, List.append_assoc]⟩
      intro t' ht'
      rcases List.mem_cons.mp ht' with rfl | ht'
      · exact ht
      · exact hcoded t' ht'

/-! ## Headers -/

variable {h : Header} {p : Parsed}

/-- The stream form of a valid header is read. -/
theorem parse_bits (hv : h.Valid) (rest : List Bool) :
    parse (h.bits ++ rest) = some ⟨h, h.lens, rest⟩ := by
  have hl := hv.hlit_le
  have hd := hv.hdist_le
  have hc := hv.hclen_le
  have hbits : h.bits ++ rest = Bits.ofNat 5 h.hlit ++ (Bits.ofNat 5 h.hdist ++
      (Bits.ofNat 4 h.hclen ++
        (Header.lengthBits h.sent ++ (tokenBits h.code h.tokens ++ rest)))) := by
    simp only [Header.bits, Header.openingBits, Header.fieldBits, List.append_assoc]
  have hsent := codeLengths_lengthBits hv.sent_le (tokenBits h.code h.tokens ++ rest)
  rw [hv.length_sent] at hsent
  have htokens : tokens (.ofSent h.sent) (h.hlit + 257 + (h.hdist + 1)) []
      (tokenBits h.code h.tokens ++ rest) = some (h.tokens, h.lens, rest) :=
    tokens_tokenBits hv.code_feasible hv.covers hv.coded hv.expands rest
  -- Each of the four checks goes through.
  have hrange : (guard (h.hlit + 257 ≤ 286 ∧ h.hdist + 1 ≤ 30) : Option Unit) = some () :=
    (Option.guard_eq_some' ()).mpr (by omega)
  have hcode : (guard ((Lengths.ofSent h.sent).kraft ≤ 2 ^ maxCodeBits) : Option Unit) = some () :=
    (Option.guard_eq_some' ()).mpr hv.code_feasible.kraft_le
  have hlit : (guard (Lengths.kraft (h.lens.take (h.hlit + 257)) ≤ 2 ^ maxCodeBits) : Option Unit) =
      some () := (Option.guard_eq_some' ()).mpr hv.litLen_feasible.kraft_le
  have hdist : (guard (Lengths.kraft (h.lens.drop (h.hlit + 257)) ≤ 2 ^ maxCodeBits) : Option Unit) =
      some () := (Option.guard_eq_some' ()).mpr hv.distance_feasible.kraft_le
  rw [hbits, parse, field_ofNat (by omega)]
  simp only [Option.bind_eq_bind, Option.bind_some, field_ofNat (show h.hdist < 2 ^ 5 by omega),
    field_ofNat (show h.hclen < 2 ^ 4 by omega), hrange, hsent, hcode, htokens, hlit, hdist]
  rfl

/-- What is read is the stream form of a valid header. -/
theorem parse_sound (hp : parse bits = some p) :
    p.header.Valid ∧ p.lens = p.header.lens ∧ bits = p.header.bits ++ p.rest := by
  simp only [parse, Option.bind_eq_bind, Option.bind_eq_some_iff, Prod.exists,
    Option.guard_eq_some'] at hp
  obtain ⟨hlit, bits₁, hfield₁, hdist, bits₂, hfield₂, hclen, bits₃, hfield₃, -, hrange, sent, bits₄,
    hsent, -, hcode, ts, lens, rest, htokens, -, hl, -, hd, heq⟩ := hp
  obtain ⟨-, rfl⟩ := field_eq_some hfield₁
  obtain ⟨-, rfl⟩ := field_eq_some hfield₂
  obtain ⟨hlt, rfl⟩ := field_eq_some hfield₃
  obtain ⟨hlen, hle, rfl⟩ := codeLengths_eq_some hsent
  have hle₁₅ : ∀ len ∈ Lengths.ofSent sent, len.toNat ≤ maxCodeBits := fun len hm =>
    Nat.le_trans (ofSent_le hle len hm) (by decide)
  have ho : (Header.mk hlit hdist hclen sent []).Opens :=
    ⟨by dsimp only; omega, by dsimp only; omega, by dsimp only; omega, hlen, hle, hle₁₅, hcode⟩
  obtain ⟨hcov, hcoded, hexp, rfl⟩ := tokens_eq_some ho.code_feasible htokens
  have hmax := expandAll_le (by simp) hexp
  have hv := ho.valid hcoded hcov hexp ⟨fun len hm => hmax len (List.mem_of_mem_take hm), hl⟩
    ⟨fun len hm => hmax len (List.mem_of_mem_drop hm), hd⟩
  cases heq
  refine ⟨hv, Option.some.inj (hexp.symm.trans hv.expands), ?_⟩
  simp only [Header.bits, Header.openingBits, Header.fieldBits, List.append_assoc]
  rfl

end Bitwise

/-! ## The decoder and the parser -/

namespace Decoding

open Bitwise

/-- What the decoder reads, the parser reads. -/
theorem ReadsHeader.parse_eq {h : Header} {s s' : Decoding} (hreads : ReadsHeader h s s') :
    parse s.reader.bits = some ⟨h, h.lens, s'.reader.bits⟩ := by
  rw [hreads.bits, parse_bits hreads.valid]

/-- For a codec in any state, a reader at any position and a buffer that the longest puff form fits
into: the decoder succeeds if and only if the parser accepts the bits that are left and the longest
code fits into what is left at the start of each token. It then puts the three fields, the packed
lengths and a byte for each token into the buffer, has consumed what the parser did, and holds the
lengths that the parser found. -/
theorem decodeHeader_ok_iff_parse {c : Codec} (hc : c.Reachable) {bytes : List UInt8} {r : BitReader}
    (hr : BitReader.Reachable bytes r) {out : List UInt8} (hout : maxPuffSize ≤ out.length) :
    ((∃ n s', decodeHeader ⟨c, r, .ofBuffer out⟩ = .ok n s') ↔
      ∃ p, parse ((Bits.ofBytes bytes).drop r.consumed) = some p ∧
        Lookahead p.header.code p.header.tokens p.rest.length) ∧
    ∀ n s' p, decodeHeader ⟨c, r, .ofBuffer out⟩ = .ok n s' →
      parse ((Bits.ofBytes bytes).drop r.consumed) = some p →
      s'.sink.buffer = Header.fieldBytes p.header.hlit p.header.hdist p.header.hclen ++
        pack p.header.sent ++ p.header.tokens.map Token.toByte ++ out.drop n ∧
      n = 3 + (p.header.sent.length + 1) / 2 + p.header.tokens.length ∧
      s'.reader.bits = p.rest ∧ s'.reader.consumed + p.rest.length = 8 * bytes.length ∧
      s'.codec.codeLength.lens = p.header.code ∧
      s'.codec.litLen.lens = p.lens.take (p.header.hlit + 257) ∧
      s'.codec.distance.lens = p.lens.drop (p.header.hlit + 257) := by
  rw [← hr.bits_eq]
  refine ⟨⟨?_, ?_⟩, ?_⟩
  · rintro ⟨n, s', hrun⟩
    obtain ⟨h, rfl, hreads⟩ := decodeHeader_ok hr.wellFormed hc.sized hrun
    refine ⟨_, hreads.parse_eq, ?_⟩
    rw [BitReader.length_bits]
    exact hreads.look
  · rintro ⟨p, hp, hlook⟩
    obtain ⟨hv, -, hbits⟩ := parse_sound hp
    have hroom : p.header.puff.length ≤ (ByteSink.ofBuffer out).room :=
      Nat.le_trans hv.length_puff_le hout
    have hrest : r.remaining - p.header.bits.length = p.rest.length := by
      rw [← BitReader.length_bits, hbits, List.length_append, Nat.add_sub_cancel_left]
    rcases decodeHeader_run (s := ⟨c, r, .ofBuffer out⟩) hr.wellFormed hc.sized hv ⟨_, hbits.symm⟩
      hroom with ⟨-, s', hok, -⟩ | ⟨hnot, -⟩
    · exact ⟨_, s', hok⟩
    · dsimp only at hnot
      rw [hrest] at hnot
      exact absurd hlook hnot
  · intro n s' p hrun hp
    obtain ⟨h, rfl, hreads⟩ := decodeHeader_ok hr.wellFormed hc.sized hrun
    obtain rfl : ⟨h, h.lens, s'.reader.bits⟩ = p := Option.some.inj (hreads.parse_eq.symm.trans hp)
    have hmoves := hr.moves.trans hreads.reader
    have htotal : (BitReader.ofBytes bytes).remaining = 8 * bytes.length := by
      rw [← BitReader.length_bits, BitReader.bits_ofBytes, Bits.length_ofBytes]
    refine ⟨hreads.sink.buffer_eq, Header.length_puff h, rfl, ?_, hreads.holds.codeLength,
      hreads.holds.litLen, hreads.holds.distance⟩
    have hle := hmoves.le_remaining
    have hconsumed := hmoves.consumed_eq
    rw [BitReader.consumed_ofBytes, Nat.zero_add] at hconsumed
    dsimp only
    rw [BitReader.length_bits, hmoves.remaining_eq, htotal]
    omega

/-- The plain header is decoded from its stream, after the three bits of the block header. -/
theorem decodeHeader_plainStream : ∃ r : BitReader, BitReader.Reachable Codec.plainStream r ∧
    ∃ n s', decodeHeader ⟨.new, r, .ofBuffer (List.replicate maxPuffSize 0)⟩ = .ok n s' := by
  have hr : BitReader.Reachable Codec.plainStream _ := .drop 3 (.ensure 3 .start)
  have hroom : maxPuffSize ≤ (List.replicate maxPuffSize (0 : UInt8)).length := by
    rw [List.length_replicate]
  refine ⟨_, hr, (decodeHeader_ok_iff_parse .new hr hroom).1.mpr ?_⟩
  have hbits : (Bits.ofBytes Codec.plainStream).drop 3 =
      Header.plain.bits ++ List.replicate 7 false := by decide +kernel
  refine ⟨⟨Header.plain, Header.plain.lens, List.replicate 7 false⟩, ?_, ?_⟩
  · rw [← parse_bits Header.plain_valid, ← hbits]
    rfl
  · rw [lookahead_iff_getLast (by decide)]
    decide +kernel

end Decoding
end DeflateHeader
