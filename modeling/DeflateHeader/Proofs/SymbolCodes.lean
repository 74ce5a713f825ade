import DeflateHeader.Code.CodeTable
import DeflateHeader.Proofs.CanonicalCode

/-!
# Code tables hold the canonical code

`Encodes t lens` says that a code table answers with the canonical code of each of its symbols that
has one, and with 0 for the others. `CodeTable.build` makes such a table from every feasible set of
lengths, whatever the table held before and whether it has more symbols than there are lengths or
fewer (`CodeTable.build_ok`).
-/

namespace DeflateHeader

open Lengths

namespace CodeTable

variable {lens : Lengths}

/-- A table that holds the canonical code of `lens` for each of its symbols. -/
def Encodes (t : CodeTable) (lens : Lengths) : Prop :=
  ∀ s < t.size, t.code s = some (if lens.lengthOf s = 0 then 0 else Bits.toNat (lens.codeBits s))

/-- Sorting leaves a list in ascending order as it is. -/
theorem bySymbol_eq_self {book : CodeBook}
    (h : book.Pairwise fun w w' => w.symbol < w'.symbol) : bySymbol book = book := by
  induction book with
  | nil => rfl
  | cons w book ih =>
    obtain ⟨hw, hp⟩ := List.pairwise_cons.mp h
    have hfold : bySymbol (w :: book) = insertBySymbol w (bySymbol book) := rfl
    rw [hfold, ih hp]
    cases book with
    | nil => rfl
    | cons w' book =>
      have := hw w' (by simp)
      rw [insertBySymbol, if_neg (by omega)]

/-- The code words of the symbols from `a` on, for lengths within the range of symbols. -/
private theorem symbol_of_word? (hn : lens.length ≤ symbolRange) {s : Nat} {w : CodeWord}
    (h : lens.word? s = some w) :
    0 < lens.lengthOf s ∧ w.symbol = s ∧ w.code = Bits.toNat (lens.codeBits s) := by
  rw [word?] at h
  split at h
  · cases h
  · rename_i hz
    have hs := lt_length_of_pos (Nat.pos_of_ne_zero hz)
    cases h
    exact ⟨Nat.pos_of_ne_zero hz, Nat.mod_eq_of_lt (by omega), rfl⟩

private theorem codesFrom_nil (a n : Nat) : codesFrom a n [] = List.replicate n 0 := by
  induction n generalizing a with
  | zero => rfl
  | succ n ih => rw [codesFrom, ih, List.replicate_succ]

/-- A walk along symbols and words in step finds each symbol's word if it has one. -/
private theorem codesFrom_words (hn : lens.length ≤ symbolRange) {a m : Nat}
    (hm : a + m = lens.length) (n : Nat) :
    codesFrom a n ((List.range' a m).filterMap lens.word?) =
      (List.range' a n).map fun s =>
        if lens.lengthOf s = 0 then 0 else Bits.toNat (lens.codeBits s) := by
  induction n generalizing a m with
  | zero => rfl
  | succ n ih =>
    cases m with
    | zero =>
      have hz : ∀ s ∈ List.range' a (n + 1),
          (if lens.lengthOf s = 0 then 0 else Bits.toNat (lens.codeBits s)) = 0 := fun s hs => by
        rw [if_pos (lengthOf_eq_zero (by rw [List.mem_range'_1] at hs; omega))]
      rw [List.map_congr_left hz, List.range'_zero, List.filterMap_nil, codesFrom_nil,
        List.map_const', List.length_range']
    | succ m =>
      have ih := ih (a := a + 1) (m := m) (by omega)
      rw [List.range'_succ, List.range'_succ, List.map_cons, ← ih]
      cases hw : lens.word? a with
      | some w =>
        obtain ⟨hpos, hsym, hcode⟩ := symbol_of_word? hn hw
        rw [List.filterMap_cons_some hw, codesFrom, if_pos hsym, hcode, if_neg (by omega)]
      | none =>
        have hz : lens.lengthOf a = 0 := by
          by_contra h; simp [word?, h] at hw
        rw [List.filterMap_cons_none hw, if_pos hz]
        cases hws : (List.range' (a + 1) m).filterMap lens.word? with
        | nil => rfl
        | cons w ws =>
          have hmem : w ∈ (List.range' (a + 1) m).filterMap lens.word? := by simp [hws]
          obtain ⟨s, hs, hw'⟩ := List.mem_filterMap.mp hmem
          rw [List.mem_range'_1] at hs
          rw [codesFrom, if_neg (by rw [(symbol_of_word? hn hw').2.1]; omega)]

/-- A table is built for every feasible set of lengths. -/
theorem build_ok (t : CodeTable) (book : CodeBook) (hf : lens.Feasible)
    (hn : lens.length ≤ symbolRange) :
    ∃ t', build lens (t, book) = .ok lens.maxLength (t', lens.words) ∧ t'.Encodes lens ∧
      t'.size = t.size := by
  have hcodes : codesFrom 0 t.size lens.words = (List.range t.size).map fun s =>
      if lens.lengthOf s = 0 then 0 else Bits.toNat (lens.codeBits s) := by
    rw [words, List.range_eq_range', List.range_eq_range']
    exact codesFrom_words hn (Nat.zero_add _) t.size
  refine ⟨⟨(codesFrom 0 t.size lens.words).toArray⟩, ?_, fun s hs => ?_, ?_⟩
  · rw [build, run_bind_ok (focus_snd_ok (CodeBook.assign_ok hf book)), run_bind_ok run_get]
    dsimp only
    rw [bySymbol_eq_self (pairwise_words hn)]
    rfl
  · have hsize : s < t.size := by rw [hcodes] at hs; simpa [size] using hs
    rw [code, hcodes]
    simp [hsize]
  · rw [hcodes]
    simp [size]

/-- Other lengths are rejected, and the table and the book stay as they were. -/
theorem build_error (t : CodeTable) (book : CodeBook) (h : ¬ lens.Feasible) :
    ∃ detail, build lens (t, book) = .error (.invalid detail) (t, book) := by
  obtain ⟨detail, hassign⟩ := CodeBook.assign_error h book
  exact ⟨detail, by rw [build, run_bind_error (focus_snd_error hassign)]⟩

theorem feasible_of_build {t : CodeTable} {book : CodeBook} {n : Nat} {s : CodeTable × CodeBook}
    (h : build lens (t, book) = .ok n s) : lens.Feasible := by
  by_contra hn
  obtain ⟨detail, he⟩ := build_error t book hn
  rw [he] at h
  cases h

/-- A build that succeeds gives a table for its lengths, with as many symbols as before. -/
theorem encodes_of_build {t t' : CodeTable} {book book' : CodeBook} {n : Nat}
    (hn : lens.length ≤ symbolRange) (h : build lens (t, book) = .ok n (t', book')) :
    lens.Feasible ∧ t'.Encodes lens ∧ t'.size = t.size := by
  have hf := feasible_of_build h
  obtain ⟨t₁, hbuild, he, hsize⟩ := build_ok t book hf hn
  rw [hbuild] at h
  cases h
  exact ⟨hf, he, hsize⟩

end CodeTable
end DeflateHeader
