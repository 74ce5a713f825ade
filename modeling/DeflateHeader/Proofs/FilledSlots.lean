import DeflateHeader.Proofs.ExactTables
import Mathlib.Algebra.BigOperators.Fin
import Mathlib.Data.Int.CardIntervalMod

/-!
# How many keys a table answers

A code of `l` bits is found in all keys of `n` bits that begin with it, which are `2 ^ (n - l)`
(`Lengths.card_matches`). No key begins with two codes, so the keys for which a table finds a symbol are
as many as the codes take together (`LookupTable.Decodes.card_answered`). That is the Kraft sum in units
of `2 ^ -n` (`Lengths.taken_mul`): there is a symbol for every key if and only if the Kraft sum is 1.
-/

namespace DeflateHeader

open Lengths

namespace Lengths

variable {lens : Lengths} {n s : Nat}

/-- What all codes together take of the keys of `bits` bits: `2 ^ (bits - l)` for a code of length
`l`. -/
def taken (lens : Lengths) (bits : Nat) : Nat :=
  (lens.map fun len => if len = 0 then 0 else 2 ^ (bits - len.toNat)).sum

/-- For keys of 15 bits that is the Kraft sum. -/
theorem taken_maxCodeBits (lens : Lengths) : lens.taken maxCodeBits = lens.kraft := rfl

/-- A key that is longer by `k` bits begins with the same code in `2 ^ k` ways. -/
theorem taken_mul (h : ∀ len ∈ lens, len.toNat ≤ n) (k : Nat) :
    lens.taken n * 2 ^ k = lens.taken (n + k) := by
  induction lens with
  | nil => simp [taken]
  | cons len lens ih =>
    have hcons : ∀ bits, taken (len :: lens) bits =
        (if len = 0 then 0 else 2 ^ (bits - len.toNat)) + taken lens bits := by simp [taken]
    have hlen := h len (by simp)
    rw [hcons, hcons, Nat.add_mul, ih fun x hx => h x (by simp [hx])]
    split
    · rw [Nat.zero_mul]
    · rw [← Nat.pow_add, Nat.sub_add_comm hlen]

/-- The keys take up all of the code space if and only if the Kraft sum is 1. -/
theorem taken_eq_iff (hf : lens.Feasible) :
    lens.taken lens.maxLength = 2 ^ lens.maxLength ↔ lens.kraft = 2 ^ maxCodeBits := by
  have hscale := taken_mul (fun len (h : len ∈ lens) => le_maxLength h) (maxCodeBits - lens.maxLength)
  rw [Nat.add_sub_cancel' hf.maxLength_le, taken_maxCodeBits] at hscale
  have hp : 2 ^ maxCodeBits = 2 ^ lens.maxLength * 2 ^ (maxCodeBits - lens.maxLength) := by
    rw [← Nat.pow_add, Nat.add_sub_cancel' hf.maxLength_le]
  rw [← hscale, hp]
  exact (Nat.mul_left_inj (Nat.two_pow_pos _).ne').symm

/-- The sum over all symbols. -/
theorem taken_eq_sum (lens : Lengths) (bits : Nat) :
    lens.taken bits =
      ∑ s ∈ Finset.range lens.length, if 0 < lens.lengthOf s then 2 ^ (bits - lens.lengthOf s) else 0 := by
  rw [taken, ← Fin.sum_univ_fun_getElem, Finset.sum_range]
  refine Finset.sum_congr rfl fun s _ => ?_
  rw [lengthOf_eq_getElem s.isLt, ← ite_not]
  exact if_congr (by rw [← lengthOf_eq_getElem s.isLt, lengthOf_pos_iff s.isLt]) rfl rfl

/-- Of the keys of `n` bits, `2 ^ (n - l)` begin with a given code of length `l`. -/
theorem card_matches (hs : 0 < lens.lengthOf s) (hn : lens.lengthOf s ≤ n) :
    ((Finset.range (2 ^ n)).filter fun key => lens.Matches key s).card =
      2 ^ (n - lens.lengthOf s) := by
  have hmod : ∀ key, lens.Matches key s ↔
      key ≡ Bits.toNat (lens.codeBits s) [MOD 2 ^ lens.lengthOf s] := fun key => by
    rw [Nat.ModEq, ← Bits.ofNat_inj, Bits.ofNat_toNat_of_length (length_codeBits lens s)]
    exact matches_iff.trans (and_iff_right hs)
  simp only [hmod]
  rw [← Nat.count_eq_card_filter_range, Nat.count_modEq_card _ (Nat.two_pow_pos _),
    Nat.pow_div hn (by decide), Nat.mod_eq_zero_of_dvd (Nat.pow_dvd_pow 2 hn),
    if_neg (Nat.not_lt_zero _), Nat.add_zero]

end Lengths

/-- The keys of `bits` bits for which there is an answer. -/
def answered (bits : Nat) (answer : Nat → Option Nat) : Finset Nat :=
  (Finset.range (2 ^ bits)).filter fun key => answer key ≠ none

/-- There are answers for as many keys of `bits` bits as the codes take, so for all keys only if the codes
take up the whole code space, and for none if there are no codes. -/
structure AnswersShare (lens : Lengths) (bits : Nat) (answer : Nat → Option Nat) : Prop where
  card_eq : (answered bits answer).card = lens.taken bits
  all_iff : (∀ key, answer key ≠ none) ↔ lens.kraft = 2 ^ maxCodeBits
  gap : lens.kraft ≠ 2 ^ maxCodeBits → ∃ key < 2 ^ bits, answer key = none
  none_of_unused : (∀ len ∈ lens, len = 0) → ∀ key, answer key = none

namespace LookupTable

variable {lens : Lengths} {t : LookupTable} {n : Nat}

/-- The keys with an answer are those that begin with a code, each with one only. -/
theorem Decodes.card_answered (h : t.Decodes lens) (hf : lens.Feasible) (hn : lens.maxLength ≤ n) :
    (answered n t.lookup).card = lens.taken n := by
  have hunion : answered n t.lookup = ((Finset.range lens.length).filter (0 < lens.lengthOf ·)).biUnion
      fun s => (Finset.range (2 ^ n)).filter fun key => lens.Matches key s := by
    ext key
    simp only [answered, Finset.mem_filter, Finset.mem_biUnion, ne_eq, h.lookup_eq_none_iff, not_forall,
      not_not]
    constructor
    · rintro ⟨hkey, s, hs⟩
      have hpos := (matches_iff.mp hs).1
      exact ⟨s, ⟨Finset.mem_range.mpr (lt_length_of_pos hpos), hpos⟩, hkey, hs⟩
    · rintro ⟨s, -, hkey, hs⟩
      exact ⟨hkey, s, hs⟩
  rw [hunion, Finset.card_biUnion, Finset.sum_congr rfl fun s hs => card_matches
    (Finset.mem_filter.mp hs).2 (Nat.le_trans (lengthOf_le_maxLength lens s) hn), Finset.sum_filter,
    taken_eq_sum]
  -- Two codes that a key begins with are one.
  intro s _ s' _ hne
  refine Finset.disjoint_left.mpr fun key hs hs' => hne ?_
  exact (Finset.mem_filter.mp hs).2.unique hf (Finset.mem_filter.mp hs').2

theorem Decodes.answersShare (h : t.Decodes lens) (hf : lens.Feasible) :
    AnswersShare lens lens.maxLength t.lookup := by
  have hcard := h.card_answered hf (Nat.le_refl _)
  have hall : (∀ key < 2 ^ lens.maxLength, t.lookup key ≠ none) ↔ lens.kraft = 2 ^ maxCodeBits := by
    have hrange := Finset.card_filter_eq_iff (s := Finset.range (2 ^ lens.maxLength))
      (p := fun key => t.lookup key ≠ none)
    rw [Finset.card_range] at hrange
    rw [← taken_eq_iff hf, ← hcard, answered, hrange]
    simp only [Finset.mem_range]
  refine ⟨hcard, ⟨fun hkeys => hall.mp fun key _ => hkeys key, fun hk key => ?_⟩, fun hk => ?_,
    fun hzero key => h.lookup_eq_none_iff.mpr fun s hs => ?_⟩
  · rw [← lookup_mod, h.maxBits_eq]
    exact hall.mpr hk _ (Nat.mod_lt _ (Nat.two_pow_pos _))
  · by_contra hnone
    exact hk (hall.mp fun key hkey heq => hnone ⟨key, hkey, heq⟩)
  · have hpos := (matches_iff.mp hs).1
    have hlt := lt_length_of_pos hpos
    exact (lengthOf_pos_iff hlt).mp hpos (hzero _ (List.getElem_mem hlt))

/-- A table that is built for lengths which are accepted finds a symbol for exactly as many keys as the
codes take of the code space, whatever the table and its storage held before. So it finds one for
every key if and only if the Kraft sum is 1, and otherwise there is a key within its lookahead for which
it finds none; if no symbol has a code it never finds any. -/
theorem share_of_accepted {lens : Lengths} {book words : CodeBook} {n : Nat}
    (hn : lens.length ≤ slotSymbols) (haccept : CodeBook.assign lens book = .ok n words) :
    (∀ (t : LookupTable) (earlier : CodeBook), slotCount n ≤ t.capacity →
      ∃ t' sorted, build lens (t, earlier) = .ok n (t', sorted) ∧ t'.maxBits = n ∧
        AnswersShare lens n t'.lookup) ∧
    ∀ (store : SlotStorage) (earlier : CodeBook), slotCount n ≤ store.slots.size →
      ∃ store' sorted, SlotStorage.build lens (store, earlier) = .ok n (store', sorted) ∧
        store'.maxBits = n ∧ AnswersShare lens n store'.lookup := by
  obtain ⟨hf, rfl, -⟩ := CodeBook.assign_inv haccept
  refine ⟨fun t earlier hcap => ?_, fun store earlier hsize => ?_⟩
  · obtain ⟨t', sorted, hbuild, h, -⟩ := build_ok earlier hf hn hcap
    exact ⟨t', sorted, hbuild, h.maxBits_eq, h.answersShare hf⟩
  · obtain ⟨t', sorted, hbuild, h, -⟩ :=
      build_ok (t := { capacity := store.slots.size }) earlier hf hn hsize
    obtain ⟨store', hbuild', hmax, hlookup⟩ := SlotStorage.build_of_build hbuild store hsize
    exact ⟨store', sorted, hbuild', hmax.trans h.maxBits_eq, hlookup ▸ h.answersShare hf⟩

/-- The lengths 2, 0 and 3 take two and one of the eight keys of three bits, and leave some key without an
answer, also in storage that is full of marked words. -/
theorem share_of_accepted_incomplete : ∃ store' sorted,
    SlotStorage.build [2, 0, 3] (⟨Array.replicate 16 0xFFFF, 4⟩, [⟨7, 9⟩]) =
      .ok 3 (store', sorted) ∧
    (answered 3 store'.lookup).card = 3 ∧ ∃ key < 8, store'.lookup key = none := by
  have hf : Feasible [2, 0, 3] := by decide
  obtain ⟨store', sorted, hbuild, -, h⟩ :=
    (share_of_accepted (by decide) (CodeBook.assign_ok hf [⟨7, 9⟩])).2
      ⟨Array.replicate 16 0xFFFF, 4⟩ [⟨7, 9⟩] (by decide)
  exact ⟨store', sorted, hbuild, h.card_eq.trans (by decide), h.gap (by decide)⟩

end LookupTable
end DeflateHeader
