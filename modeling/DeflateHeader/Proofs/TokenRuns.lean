import DeflateHeader.Proofs.CanonicalCode
import DeflateHeader.Token
import Mathlib.Tactic.IntervalCases

/-!
# Tokens and what they stand for

A token has one form in the stream (`Token.bits`) and one in a puff buffer (`toByte`); each form
determines the token (`eq_of_bits_isPrefix`, `ofByte?_eq_some_iff`).

A sequence of tokens `Covers` a number of missing lengths if the last token, and none before it,
completes them. `expandAll` appends the lengths that the tokens stand for, and `Lookahead` says that
the longest code could be read before each of them.
-/

namespace DeflateHeader

namespace Token

variable {t t' : Token} {code lens : Lengths} {symbol width extra : Nat} {byte : UInt8}

theorem symbol_le (t : Token) : t.symbol ≤ 18 := by
  cases t <;> simp only [Token.symbol] <;> omega

theorem extra_lt (t : Token) : t.extra < 2 ^ t.extraWidth := by
  cases t <;> simp only [Token.extra, Token.extraWidth] <;> omega

theorem extraWidth_le (t : Token) : t.extraWidth ≤ 7 := by
  cases t <;> simp [Token.extraWidth]

theorem count_le (t : Token) : t.count ≤ 138 := by
  cases t <;> simp only [Token.count] <;> omega

@[simp] theorem extraWidth?_symbol (t : Token) : extraWidth? t.symbol = some t.extraWidth := by
  cases t <;> simp [extraWidth?, Token.symbol, Token.extraWidth]

/-- A symbol and the value of its extra bits make a token. -/
theorem exists_of_symbol (hw : extraWidth? symbol = some width) (he : extra < 2 ^ width) :
    ∃ t, ofSymbol symbol extra = .ok t ∧ t.symbol = symbol ∧ t.extraWidth = width ∧
      t.extra = extra := by
  unfold extraWidth? at hw
  unfold ofSymbol ofSymbol?
  split at hw
  · rename_i hs
    cases hw
    refine ⟨.length (Fin.ofNat 16 symbol), by rw [if_pos hs], ?_, rfl, ?_⟩
    · simp [Token.symbol, Nat.mod_eq_of_lt hs]
    · simp only [Token.extra]; omega
  · split at hw <;> cases hw
    · exact ⟨.repeatPrevious (Fin.ofNat 4 extra), rfl, rfl, rfl, Nat.mod_eq_of_lt he⟩
    · exact ⟨.repeatZero (Fin.ofNat 8 extra), rfl, rfl, rfl, Nat.mod_eq_of_lt he⟩
    · exact ⟨.repeatZeroLong (Fin.ofNat 128 extra), rfl, rfl, rfl, Nat.mod_eq_of_lt he⟩

theorem extraWidth?_le (hw : extraWidth? symbol = some width) : symbol ≤ 18 ∧ width ≤ 7 := by
  unfold extraWidth? at hw
  split at hw
  · cases hw; omega
  · split at hw <;> cases hw <;> omega

theorem lt_of_extraWidth?_eq_none (hw : extraWidth? symbol = none) : 18 < symbol := by
  by_contra hle
  unfold extraWidth? at hw
  interval_cases symbol <;> simp at hw

/-- A token is determined by its symbol and its extra bits. -/
theorem eq_of_symbol_extra (hs : t.symbol = t'.symbol) (he : t.extra = t'.extra) : t = t' := by
  have h := ofSymbol?_symbol t
  rw [hs, he, ofSymbol?_symbol] at h
  exact (Option.some.inj h).symm

theorem isRepeatPrevious_iff (t : Token) : t.isRepeatPrevious = true ↔ t.symbol = 16 := by
  cases t with
  | length len => simp [isRepeatPrevious, Token.symbol]; omega
  | _ => simp [isRepeatPrevious, Token.symbol]

theorem value?_eq_none_iff : t.value? lens = none ↔ t.symbol = 16 ∧ lens = [] := by
  rw [← isRepeatPrevious_iff]
  cases t <;> simp [value?, isRepeatPrevious]

theorem value_of_expand {lens' : Lengths} (h : t.expand lens = .ok lens') :
    ∃ value, t.value? lens = some value ∧ lens' = lens ++ List.replicate t.count value := by
  unfold expand at h
  cases hv : t.value? lens with
  | none =>
    rw [hv] at h
    cases h
  | some value =>
    rw [hv] at h
    cases h
    exact ⟨value, rfl, rfl⟩

/-- A length to repeat is the last one, so those before it play no role. -/
theorem value?_append {value : UInt8} (earlier : Lengths) (h : t.value? lens = some value) :
    t.value? (earlier ++ lens) = some value := by
  cases t with
  | length len => exact h
  | repeatPrevious extra =>
    have hlast : lens.getLast? = some value := h
    show (earlier ++ lens).getLast? = some value
    rw [List.getLast?_append, hlast]
    rfl
  | repeatZero extra => exact h
  | repeatZeroLong extra => exact h

theorem expand_append {lens' : Lengths} (earlier : Lengths) (h : t.expand lens = .ok lens') :
    t.expand (earlier ++ lens) = .ok (earlier ++ lens') := by
  obtain ⟨value, hv, rfl⟩ := value_of_expand h
  rw [expand, value?_append earlier hv, ← List.append_assoc]

/-! ## Bytes -/

theorem toNat_toByte_le (t : Token) : t.toByte.toNat ≤ 155 := by
  cases t <;> simp only [toByte, UInt8.toNat_ofNat'] <;> omega

theorem ofByte?_eq_some_iff : ofByte? byte = some t ↔ byte = t.toByte := by
  constructor
  · intro h
    simp only [ofByte?] at h
    have := byte.toNat_lt
    apply UInt8.toNat_inj.mp
    split at h
    · cases h; simp only [toByte, UInt8.toNat_ofNat', Fin.val_ofNat]; omega
    split at h
    · cases h; simp only [toByte, UInt8.toNat_ofNat', Fin.val_ofNat]; omega
    split at h
    · cases h; simp only [toByte, UInt8.toNat_ofNat', Fin.val_ofNat]; omega
    split at h
    · cases h; simp only [toByte, UInt8.toNat_ofNat', Fin.val_ofNat]; omega
    · cases h
  · rintro rfl
    exact ofByte?_toByte t

theorem ofByte?_eq_none_iff : ofByte? byte = none ↔ 155 < byte.toNat := by
  unfold ofByte?
  simp only
  split <;> (try split) <;> (try split) <;> (try split) <;> simp <;> omega

theorem toByte_inj (h : t.toByte = t'.toByte) : t = t' := by
  have h' := ofByte?_toByte t
  rw [h, ofByte?_toByte] at h'
  exact (Option.some.inj h').symm

/-! ## Bits -/

/-- A token in the stream: the code of its symbol and the extra bits. -/
def bits (code : Lengths) (t : Token) : List Bool :=
  code.codeBits t.symbol ++ Bits.ofNat t.extraWidth t.extra

/-- The two fields of a token in the stream. -/
def fields (code : Lengths) (t : Token) : List (List Bool) :=
  [code.codeBits t.symbol, Bits.ofNat t.extraWidth t.extra]

theorem flatten_fields (code : Lengths) (t : Token) : (t.fields code).flatten = t.bits code := by
  simp [fields, bits]

theorem length_bits (code : Lengths) (t : Token) :
    (t.bits code).length = code.lengthOf t.symbol + t.extraWidth := by
  simp [bits]

/-- A bit string begins with at most one token whose symbol has a code. -/
theorem eq_of_bits_isPrefix {bs : List Bool} (hf : code.Feasible) (ht : 0 < code.lengthOf t.symbol)
    (ht' : 0 < code.lengthOf t'.symbol) (h : t.bits code <+: bs) (h' : t'.bits code <+: bs) :
    t = t' := by
  have hs : t.symbol = t'.symbol := Lengths.eq_of_isPrefix hf ht ht'
    ((List.prefix_append _ _).trans h) ((List.prefix_append _ _).trans h')
  have hw : t.extraWidth = t'.extraWidth := by
    have := extraWidth?_symbol t
    rw [hs, extraWidth?_symbol] at this
    exact (Option.some.inj this).symm
  have heq : t.bits code = t'.bits code := by
    refine List.IsPrefix.eq_of_length (List.prefix_of_prefix_length_le h h' ?_) ?_ <;>
      simp [length_bits, hs, hw]
  rw [bits, bits, hs] at heq
  have he := List.append_cancel_left heq
  rw [hw, Bits.ofNat_inj, Nat.mod_eq_of_lt (hw ▸ t.extra_lt), Nat.mod_eq_of_lt t'.extra_lt] at he
  exact eq_of_symbol_extra hs he

end Token

/-! ## Sequences of tokens -/

variable {code lens : Lengths} {t : Token} {ts : List Token} {missing : Nat}

/-- The stream form of a sequence of tokens. -/
def tokenBits (code : Lengths) (ts : List Token) : List Bool := ts.flatMap (Token.bits code)

@[simp] theorem tokenBits_nil (code : Lengths) : tokenBits code [] = [] := rfl

@[simp] theorem tokenBits_cons (code : Lengths) (t : Token) (ts : List Token) :
    tokenBits code (t :: ts) = t.bits code ++ tokenBits code ts := rfl

/-- The stream form of a sequence of tokens, field by field. -/
def tokenFields (code : Lengths) (ts : List Token) : List (List Bool) :=
  ts.flatMap (Token.fields code)

/-- The lengths after a sequence of tokens; `none` if one of them has no length to repeat. -/
def expandAll : Lengths → List Token → Option Lengths
  | lens, [] => some lens
  | lens, t :: ts =>
    match t.value? lens with
    | some value => expandAll (lens ++ List.replicate t.count value) ts
    | none => none

/-- The tokens stand for the missing lengths, and the last one is needed for that. -/
def Covers : Nat → List Token → Prop
  | 0, ts => ts = []
  | _ + 1, [] => False
  | missing + 1, t :: ts => Covers (missing + 1 - t.count) ts

/-- How many lengths a sequence of tokens stands for. -/
def totalCount (ts : List Token) : Nat := (ts.map Token.count).sum

@[simp] theorem totalCount_nil : totalCount [] = 0 := rfl

@[simp] theorem totalCount_cons (t : Token) (ts : List Token) :
    totalCount (t :: ts) = t.count + totalCount ts := by
  simp [totalCount]

/-- The longest code fits into what is left at the start of every token, when `rest` bits follow
the last one. -/
def Lookahead (code : Lengths) (ts : List Token) (rest : Nat) : Prop :=
  ∀ k < ts.length, code.maxLength ≤ (tokenBits code (ts.drop k)).length + rest

theorem expandAll_cons_of_some {value : UInt8} (h : t.value? lens = some value) :
    expandAll lens (t :: ts) = expandAll (lens ++ List.replicate t.count value) ts := by
  rw [expandAll, h]

theorem expandAll_cons_eq_some {lens' : Lengths} (h : expandAll lens (t :: ts) = some lens') :
    ∃ value, t.value? lens = some value ∧
      expandAll (lens ++ List.replicate t.count value) ts = some lens' := by
  rw [expandAll] at h
  split at h
  · exact ⟨_, ‹_›, h⟩
  · cases h

/-- What follows a sequence of tokens goes on from the lengths that they leave. -/
theorem expandAll_append (lens : Lengths) (ts ts' : List Token) :
    expandAll lens (ts ++ ts') = (expandAll lens ts).bind fun lens => expandAll lens ts' := by
  induction ts generalizing lens with
  | nil => rfl
  | cons t ts ih =>
    rw [List.cons_append, expandAll, expandAll]
    cases t.value? lens with
    | some value => exact ih _
    | none => rfl

theorem length_expandAll {lens' : Lengths} (h : expandAll lens ts = some lens') :
    lens'.length = lens.length + totalCount ts := by
  induction ts generalizing lens with
  | nil => cases h; rfl
  | cons t ts ih =>
    obtain ⟨value, -, h⟩ := expandAll_cons_eq_some h
    rw [ih h, List.length_append, List.length_replicate, totalCount_cons, Nat.add_assoc]

@[simp] theorem covers_zero : Covers 0 ts ↔ ts = [] := by
  cases ts <;> simp [Covers]

theorem covers_cons (h : 0 < missing) :
    Covers missing (t :: ts) ↔ Covers (missing - t.count) ts := by
  obtain ⟨m, rfl⟩ := Nat.exists_eq_add_of_lt h
  rw [Nat.zero_add]
  exact Iff.rfl

/-- Tokens cover the missing lengths if all of them together are enough and all but the last are
not. -/
theorem covers_iff (h : 0 < missing) :
    Covers missing ts ↔ ts ≠ [] ∧ totalCount ts.dropLast < missing ∧ missing ≤ totalCount ts := by
  induction ts generalizing missing with
  | nil =>
    obtain ⟨m, rfl⟩ := Nat.exists_eq_add_of_lt h
    rw [Nat.zero_add]
    simp [Covers]
  | cons t ts ih =>
    have ht := t.count_pos
    rw [covers_cons h]
    rcases Nat.eq_zero_or_pos (missing - t.count) with h0 | hpos
    · rw [h0]
      cases ts with
      | nil => simp [Covers]; omega
      | cons t' ts => simp [Covers]; omega
    · rw [ih hpos]
      cases ts with
      | nil => simp; omega
      | cons t' ts => simp; omega

theorem Covers.totalCount_bounds (h : Covers missing ts) :
    missing ≤ totalCount ts ∧ totalCount ts < missing + 138 ∧ ts.length ≤ missing := by
  induction ts generalizing missing with
  | nil =>
    cases missing with
    | zero => simp [totalCount]
    | succ m => exact h.elim
  | cons t ts ih =>
    have ht := t.count_pos
    have ht' := t.count_le
    cases missing with
    | zero => cases h
    | succ m =>
      have hb := ih ((covers_cons (Nat.succ_pos m)).mp h)
      have hnil : m + 1 - t.count = 0 → totalCount ts = 0 := fun h0 => by
        rw [covers_cons (Nat.succ_pos m), h0, covers_zero] at h
        rw [h]
        rfl
      rw [totalCount_cons, List.length_cons]
      omega

/-- The tokens before any of them leave some of the lengths missing. -/
theorem Covers.totalCount_take_lt {j : Nat} (h : Covers missing ts) (hj : j < ts.length) :
    totalCount (ts.take j) < missing := by
  induction ts generalizing missing j with
  | nil => exact absurd hj (Nat.not_lt_zero j)
  | cons t ts ih =>
    cases missing with
    | zero => cases h
    | succ m =>
      cases j with
      | zero => exact Nat.succ_pos m
      | succ j =>
        have hrest := ih ((covers_cons (Nat.succ_pos m)).mp h) (Nat.lt_of_succ_lt_succ hj)
        rw [List.take_succ_cons, totalCount_cons]
        omega

theorem lookahead_cons {rest : Nat} :
    Lookahead code (t :: ts) rest ↔
      code.maxLength ≤ (tokenBits code (t :: ts)).length + rest ∧ Lookahead code ts rest := by
  constructor
  · intro h
    exact ⟨h 0 (by simp), fun k hk => h (k + 1) (by simpa using hk)⟩
  · rintro ⟨h0, h⟩ k hk
    cases k with
    | zero => exact h0
    | succ k => exact h k (by simpa using hk)

theorem length_bits_le_of_mem (code : Lengths) (h : t ∈ ts) :
    (t.bits code).length ≤ (tokenBits code ts).length := by
  rw [tokenBits, List.length_flatMap]
  exact List.single_le_sum (by simp) _ (List.mem_map.mpr ⟨t, h, rfl⟩)

/-- What is left only shrinks, so the last token decides. -/
theorem lookahead_iff_getLast (h : ts ≠ []) {rest : Nat} :
    Lookahead code ts rest ↔ code.maxLength ≤ ((ts.getLast h).bits code).length + rest := by
  induction ts with
  | nil => exact absurd rfl h
  | cons t ts ih =>
    rw [lookahead_cons]
    cases ts with
    | nil => simp [Lookahead]
    | cons t' ts =>
      have hne : t' :: ts ≠ [] := List.cons_ne_nil t' ts
      rw [ih hne, List.getLast_cons hne]
      refine ⟨fun hl => hl.2, fun hl => ⟨?_, hl⟩⟩
      have hle := length_bits_le_of_mem code (List.getLast_mem hne)
      rw [tokenBits_cons, List.length_append]
      omega

/-- A token has at least one bit, so all but one bit of the longest code after the last token are
enough. -/
theorem lookahead_of_le_succ (hcoded : ∀ t ∈ ts, 0 < code.lengthOf t.symbol) {rest : Nat}
    (h : code.maxLength ≤ rest + 1) : Lookahead code ts rest := by
  by_cases hne : ts = []
  · subst hne
    exact fun k hk => absurd hk (Nat.not_lt_zero k)
  · rw [lookahead_iff_getLast hne, Token.length_bits]
    have := hcoded _ (List.getLast_mem hne)
    omega

/-- Every length that a token spells is at most 15. -/
theorem expandAll_le {lens' : Lengths} (hl : ∀ len ∈ lens, len.toNat ≤ maxCodeBits)
    (h : expandAll lens ts = some lens') : ∀ len ∈ lens', len.toNat ≤ maxCodeBits := by
  induction ts generalizing lens with
  | nil => cases h; exact hl
  | cons t ts ih =>
    obtain ⟨value, hv, h⟩ := expandAll_cons_eq_some h
    refine ih (fun len hm => ?_) h
    rcases List.mem_append.mp hm with hm | hm
    · exact hl len hm
    · rw [List.eq_of_mem_replicate hm]
      cases t with
      | length len =>
        cases hv
        simp only [UInt8.toNat_ofNat', maxCodeBits]; omega
      | repeatPrevious _ => exact hl value (List.mem_of_getLast? hv)
      | repeatZero _ => cases hv; simp
      | repeatZeroLong _ => cases hv; simp

/-! ## What bytes stand for -/

/-- Each of the bytes stands for a token, and `lens` are the lengths that the tokens leave. -/
def Spells (bytes : List UInt8) (lens : Lengths) : Prop :=
  ∃ ts : List Token, bytes = ts.map Token.toByte ∧ expandAll [] ts = some lens

/-- The bytes spell at least `target` lengths, with less than a longest run beyond them, and no first
part of them does. -/
structure Completes (target : Nat) (bytes : List UInt8) (lens : Lengths) : Prop where
  spells : Spells bytes lens
  target_le : target ≤ lens.length
  length_lt : lens.length < target + 138
  least : ∀ j < bytes.length, ∃ before, Spells (bytes.take j) before ∧ before.length < target

theorem spells_take {j : Nat} (h : expandAll [] ts = some lens) :
    ∃ before, Spells ((ts.map Token.toByte).take j) before ∧ before.length = totalCount (ts.take j) := by
  rw [← List.take_append_drop j ts, expandAll_append] at h
  obtain ⟨before, hbefore, -⟩ := Option.bind_eq_some_iff.mp h
  exact ⟨before, ⟨ts.take j, List.map_take.symm, hbefore⟩, by simpa using length_expandAll hbefore⟩

theorem Covers.completes {target : Nat} (h : Covers target ts) (hlens : expandAll [] ts = some lens) :
    Completes target (ts.map Token.toByte) lens := by
  obtain ⟨hle, hlt, -⟩ := h.totalCount_bounds
  have hlen : lens.length = totalCount ts := by simpa using length_expandAll hlens
  refine ⟨⟨ts, rfl, hlens⟩, by omega, by omega, fun j hj => ?_⟩
  obtain ⟨before, hspells, hcount⟩ := spells_take (j := j) hlens
  have := h.totalCount_take_lt (by simpa using hj)
  exact ⟨before, hspells, by omega⟩

end DeflateHeader
