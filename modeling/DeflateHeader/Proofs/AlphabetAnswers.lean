import DeflateHeader.Codec.Alphabet
import DeflateHeader.Proofs.Lookup
import DeflateHeader.Proofs.SymbolCodes

/-!
# What an alphabet answers

`Lengths.HasCode lens s code l` says that the symbol `s` has a code of `l` bits for the lengths `lens`,
and that `code` is this code with its bits in stream order. `AnswersKeys` and `AnswersSymbols` say of a
function that it answers by these codes, from keys to symbols or from symbols to codes. An alphabet
does so with the table for its lengths (`Alphabet.answersKeys`, `Alphabet.answersSymbols`), and there
is only one such function for given lengths (`AnswersKeys.unique`, `AnswersSymbols.unique`).
-/

namespace DeflateHeader

namespace Lengths

/-- The symbol `s` has a code of `l` bits, and `code` is this code with its bits in stream order. -/
structure HasCode (lens : Lengths) (s code l : Nat) : Prop where
  length_eq : lens[s]?.map UInt8.toNat = some l
  pos : 0 < l
  code_eq : code = bitReverse (lens.codeNumber s) l

variable {lens : Lengths} {s code key l : Nat}

theorem HasCode.lengthOf_eq (h : lens.HasCode s code l) : lens.lengthOf s = l := by
  obtain ⟨len, hlen, rfl⟩ := Option.map_eq_some_iff.mp h.length_eq
  exact lengthOf_of_getElem? hlen

theorem HasCode.lt_length (h : lens.HasCode s code l) : s < lens.length :=
  lt_length_of_pos (h.lengthOf_eq ▸ h.pos)

theorem hasCode_iff :
    lens.HasCode s code l ↔
      0 < lens.lengthOf s ∧ lens.lengthOf s = l ∧ code = Bits.toNat (lens.codeBits s) := by
  constructor
  · intro h
    have hl := h.lengthOf_eq
    refine ⟨hl ▸ h.pos, hl, ?_⟩
    rw [toNat_codeBits, hl]
    exact h.code_eq
  · rintro ⟨hpos, rfl, rfl⟩
    have hlt := lt_length_of_pos hpos
    refine ⟨?_, hpos, toNat_codeBits lens s⟩
    rw [List.getElem?_eq_getElem hlt, lengthOf_eq_getElem hlt]
    rfl

/-- A key begins with the code of a symbol. -/
theorem hasCode_mod_iff :
    lens.HasCode s (key % 2 ^ l) l ↔
      0 < lens.lengthOf s ∧ lens.lengthOf s = l ∧
        Bits.ofNat (lens.lengthOf s) key = lens.codeBits s := by
  rw [hasCode_iff]
  refine and_congr_right fun hpos => and_congr_right ?_
  rintro rfl
  rw [← Bits.toNat_ofNat]
  constructor
  · intro h
    exact Bits.eq_of_toNat_eq (by simp) h
  · intro h
    rw [h]

end Lengths

/-- The answers from a key to the symbol whose code it begins with, and the length of the code. -/
structure AnswersKeys (lens : Lengths) (answer : Nat → Except Error (Nat × Nat)) : Prop where
  ok_iff : ∀ key s l, answer key = .ok (s, l) ↔ lens.HasCode s (key % 2 ^ l) l
  unknown : ∀ key, (∀ s l, ¬ lens.HasCode s (key % 2 ^ l) l) →
    answer key = .error (.invalid .unknownCode)

/-- The answers from a symbol below `size` to its code, and the length of the code. -/
structure AnswersSymbols (lens : Lengths) (size : Nat) (answer : Nat → Except Error (Nat × Nat)) :
    Prop where
  ok_iff : ∀ s code l, answer s = .ok (code, l) ↔ s < size ∧ lens.HasCode s code l
  unused : ∀ s, (∀ code l, ¬ (s < size ∧ lens.HasCode s code l)) →
    answer s = .error (.invalid (.unusedSymbol s))

theorem AnswersKeys.unique {lens : Lengths} {f g : Nat → Except Error (Nat × Nat)}
    (hf : AnswersKeys lens f) (hg : AnswersKeys lens g) : f = g := by
  funext key
  by_cases h : ∃ s l, lens.HasCode s (key % 2 ^ l) l
  · obtain ⟨s, l, h⟩ := h
    rw [(hf.ok_iff key s l).mpr h, (hg.ok_iff key s l).mpr h]
  · have hnone : ∀ s l, ¬ lens.HasCode s (key % 2 ^ l) l := fun s l hs => h ⟨s, l, hs⟩
    rw [hf.unknown key hnone, hg.unknown key hnone]

theorem AnswersSymbols.unique {lens : Lengths} {size : Nat} {f g : Nat → Except Error (Nat × Nat)}
    (hf : AnswersSymbols lens size f) (hg : AnswersSymbols lens size g) : f = g := by
  funext s
  by_cases h : ∃ code l, s < size ∧ lens.HasCode s code l
  · obtain ⟨code, l, h⟩ := h
    rw [(hf.ok_iff s code l).mpr h, (hg.ok_iff s code l).mpr h]
  · have hnone : ∀ code l, ¬ (s < size ∧ lens.HasCode s code l) := fun code l hs => h ⟨code, l, hs⟩
    rw [hf.unused s hnone, hg.unused s hnone]

namespace Alphabet

variable {a : Alphabet}

/-- A symbol that the table shows has a length. -/
theorem symbolAt_eq (h : a.lookup.Decodes a.lens) (key : Nat) :
    a.symbolAt key = match a.lookup.lookup key with
      | none => .error (.invalid .unknownCode)
      | some s => .ok (s, a.lens.lengthOf s) := by
  unfold symbolAt
  cases hlook : a.lookup.lookup key with
  | none => rfl
  | some s =>
    have hlt := Lengths.lt_length_of_pos ((h.lookup_iff key s).mp hlook).1
    dsimp only
    rw [List.getElem?_eq_getElem hlt, Lengths.lengthOf_eq_getElem hlt]

/-- A symbol outside the table is treated like one without a length. -/
theorem codeOf_eq (h : a.codes.Encodes a.lens) (s : Nat) :
    a.codeOf s = if s < a.codes.size ∧ 0 < a.lens.lengthOf s then
        .ok (Bits.toNat (a.lens.codeBits s), a.lens.lengthOf s)
      else .error (.invalid (.unusedSymbol s)) := by
  unfold codeOf
  by_cases hs : s < a.codes.size
  · rw [h s hs]
    by_cases hpos : 0 < a.lens.lengthOf s
    · have hlen := Lengths.lt_length_of_pos hpos
      have hne : a.lens[s] ≠ 0 := by
        intro hzero
        rw [Lengths.lengthOf_eq_getElem hlen, hzero] at hpos
        exact absurd hpos (by decide)
      rw [if_pos (And.intro hs hpos), if_neg (Nat.ne_of_gt hpos), List.getElem?_eq_getElem hlen,
        Lengths.lengthOf_eq_getElem hlen]
      exact if_neg hne
    · have hand : ¬ (s < a.codes.size ∧ 0 < a.lens.lengthOf s) := fun hand => hpos hand.2
      rw [if_neg hand]
      cases hlen : a.lens[s]? with
      | none => rfl
      | some len =>
        have hzero : len = 0 := by
          apply UInt8.toNat_inj.mp
          rw [← Lengths.lengthOf_of_getElem? hlen]
          exact Nat.eq_zero_of_not_pos hpos
        exact if_pos hzero
  · have hnone : a.codes.code s = none := Array.getElem?_eq_none (Nat.le_of_not_lt hs)
    rw [hnone, if_neg (fun hand => hs hand.1)]

/-- With the table for its lengths, an alphabet answers keys by their code. -/
theorem answersKeys (h : a.lookup.Decodes a.lens) : AnswersKeys a.lens a.symbolAt := by
  have hok : ∀ key s l, a.symbolAt key = .ok (s, l) ↔ a.lens.HasCode s (key % 2 ^ l) l := by
    intro key s l
    rw [Lengths.hasCode_mod_iff, symbolAt_eq h, ← and_assoc, and_right_comm, ← h.lookup_iff]
    cases a.lookup.lookup key with
    | none => simp
    | some s' =>
      simp only [Except.ok.injEq, Prod.mk.injEq, Option.some.injEq]
      exact and_congr_right fun hs => by rw [hs]
  refine ⟨hok, fun key hnone => ?_⟩
  rw [symbolAt_eq h]
  cases hlook : a.lookup.lookup key with
  | none => rfl
  | some s =>
    refine absurd ((hok key s (a.lens.lengthOf s)).mp ?_) (hnone s _)
    rw [symbolAt_eq h, hlook]

/-- With the table for its lengths, an alphabet answers symbols by their code. -/
theorem answersSymbols (h : a.codes.Encodes a.lens) :
    AnswersSymbols a.lens a.codes.size a.codeOf := by
  have hok : ∀ s code l, a.codeOf s = .ok (code, l) ↔
      s < a.codes.size ∧ a.lens.HasCode s code l := by
    intro s code l
    rw [Lengths.hasCode_iff, codeOf_eq h]
    by_cases hs : s < a.codes.size ∧ 0 < a.lens.lengthOf s
    · rw [if_pos hs, Except.ok.injEq, Prod.mk.injEq]
      constructor
      · rintro ⟨rfl, rfl⟩
        exact ⟨hs.1, hs.2, rfl, rfl⟩
      · rintro ⟨-, -, rfl, rfl⟩
        exact ⟨rfl, rfl⟩
    · rw [if_neg hs]
      constructor
      · intro h
        cases h
      · rintro ⟨hlt, hpos, -⟩
        exact absurd ⟨hlt, hpos⟩ hs
  refine ⟨hok, fun s hnone => ?_⟩
  rw [codeOf_eq h, if_neg]
  rintro ⟨hlt, hpos⟩
  exact hnone _ _ ⟨hlt, Lengths.hasCode_iff.mpr ⟨hpos, rfl, rfl⟩⟩

/-- Two tables for the same lengths answer alike. -/
theorem symbolAt_congr {b : Alphabet} (ha : a.lookup.Decodes a.lens) (hb : b.lookup.Decodes b.lens)
    (hlens : b.lens = a.lens) : b.symbolAt = a.symbolAt := by
  have hanswers := answersKeys hb
  rw [hlens] at hanswers
  exact hanswers.unique (answersKeys ha)

theorem codeOf_congr {b : Alphabet} (ha : a.codes.Encodes a.lens) (hb : b.codes.Encodes b.lens)
    (hlens : b.lens = a.lens) (hsize : b.codes.size = a.codes.size) : b.codeOf = a.codeOf := by
  have hanswers := answersSymbols hb
  rw [hlens, hsize] at hanswers
  exact hanswers.unique (answersSymbols ha)

end Alphabet
end DeflateHeader
