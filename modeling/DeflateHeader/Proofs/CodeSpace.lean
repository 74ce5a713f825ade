import DeflateHeader.Code.Canonical
import Mathlib.Algebra.BigOperators.Intervals
import Mathlib.Algebra.BigOperators.Ring.Finset
import Mathlib.Tactic.Linarith
import Mathlib.Tactic.Positivity
import Mathlib.Tactic.Ring

/-!
# Code space

A code of length `l` takes `2 ^ (15 - l)` of a code space of `2 ^ 15`. `Lengths.kraft` is what all
codes take together, and lengths are `Feasible` if that is not more than there is.

`below lens l` is what the codes shorter than `l` take. The first code of a length starts where the
shorter ones end (`firstCode_mul`), and the code space left at a length is the rest (`unused_mul`,
`unused_eq_sub`), so the space is never exhausted exactly for feasible lengths
(`exhausted?_eq_none_iff`). For these, first codes and the space that is left stay within the codes of
their length (`Feasible.firstCode_add_le`, `Feasible.unused_nonneg`).
-/

namespace DeflateHeader

namespace Lengths

variable {lens : Lengths} {l : Nat}

/-- What a code of a given length takes of the code space; nothing for a symbol without a code. -/
def share (len : UInt8) : Nat := if len = 0 then 0 else 2 ^ (maxCodeBits - len.toNat)

/-- The Kraft sum of all codes, in units of `2 ^ -15`. -/
def kraft (lens : Lengths) : Nat := (lens.map share).sum

/-- No length is above 15, and the Kraft sum is at most 1. -/
structure Feasible (lens : Lengths) : Prop where
  le_max : ∀ len ∈ lens, len.toNat ≤ maxCodeBits
  kraft_le : lens.kraft ≤ 2 ^ maxCodeBits

/-- The longest length. -/
def maxLength (lens : Lengths) : Nat := (lens.map UInt8.toNat).foldr max 0

/-- What the codes shorter than `l` take of the code space. -/
def below (lens : Lengths) (l : Nat) : Nat :=
  ∑ i ∈ Finset.Ico 1 l, lens.count i * 2 ^ (maxCodeBits - i)

/-! ## Counts -/

@[simp] theorem count_nil (l : Nat) : count [] l = 0 := rfl

theorem count_cons (len : UInt8) (lens : Lengths) (l : Nat) :
    count (len :: lens) l = count lens l + if len.toNat = l then 1 else 0 := by
  simp [count, List.countP_cons]

theorem count_append (as bs : Lengths) (l : Nat) : count (as ++ bs) l = count as l + count bs l := by
  simp [count, List.countP_append]

theorem count_eq_zero (h : ∀ len ∈ lens, len.toNat ≠ l) : lens.count l = 0 := by
  simp only [count, List.countP_eq_zero, beq_iff_eq]
  exact h

theorem count_eq_zero_of_lt (h : ∀ len ∈ lens, len.toNat ≤ maxCodeBits) (hl : maxCodeBits < l) :
    lens.count l = 0 :=
  count_eq_zero fun len hm => by have := h len hm; omega

theorem le_maxLength {len : UInt8} (h : len ∈ lens) : len.toNat ≤ lens.maxLength := by
  induction lens with
  | nil => cases h
  | cons a lens ih =>
    simp only [maxLength, List.map_cons, List.foldr_cons]
    rcases List.mem_cons.mp h with rfl | h
    · exact Nat.le_max_left _ _
    · exact Nat.le_trans (ih h) (Nat.le_max_right _ _)

theorem maxLength_le {n : Nat} (h : ∀ len ∈ lens, len.toNat ≤ n) : lens.maxLength ≤ n := by
  induction lens with
  | nil => exact Nat.zero_le n
  | cons a lens ih =>
    simp only [maxLength, List.map_cons, List.foldr_cons]
    exact Nat.max_le.mpr ⟨h a (by simp), ih fun len hm => h len (by simp [hm])⟩

theorem maxLength_mem (h : lens.maxLength ≠ 0) : ∃ len ∈ lens, len.toNat = lens.maxLength := by
  induction lens with
  | nil => exact absurd rfl h
  | cons a lens ih =>
    have hm : maxLength (a :: lens) = max a.toNat (maxLength lens) := rfl
    rw [hm] at h ⊢
    rcases Nat.le_total a.toNat (maxLength lens) with hle | hle
    · rw [Nat.max_eq_right hle] at h ⊢
      obtain ⟨len, hmem, heq⟩ := ih h
      exact ⟨len, by simp [hmem], heq⟩
    · exact ⟨a, by simp, (Nat.max_eq_left hle).symm⟩

instance (lens : Lengths) : Decidable lens.Feasible :=
  decidable_of_iff (lens.maxLength ≤ maxCodeBits ∧ lens.kraft ≤ 2 ^ maxCodeBits)
    ⟨fun h => ⟨fun _ hm => Nat.le_trans (le_maxLength hm) h.1, h.2⟩,
      fun h => ⟨maxLength_le h.le_max, h.kraft_le⟩⟩

/-! ## The space below a length -/

@[simp] theorem below_one (lens : Lengths) : lens.below 1 = 0 := by simp [below]

theorem below_succ (hl : 1 ≤ l) :
    lens.below (l + 1) = lens.below l + lens.count l * 2 ^ (maxCodeBits - l) := by
  rw [below, Finset.sum_Ico_succ_top hl, below]

theorem below_mono {l l' : Nat} (hl : 1 ≤ l) (h : l ≤ l') : lens.below l ≤ lens.below l' := by
  induction l', h using Nat.le_induction with
  | base => exact Nat.le_refl _
  | succ l' hle ih => rw [below_succ (by omega)]; omega

theorem below_eq_of_count_eq_zero {l l' : Nat} (hl : 1 ≤ l) (h : l ≤ l')
    (hc : ∀ i, l ≤ i → i < l' → lens.count i = 0) : lens.below l' = lens.below l := by
  induction l', h using Nat.le_induction with
  | base => rfl
  | succ l' hle ih =>
    rw [below_succ (by omega), hc l' hle (by omega), ih fun i hi hlt => hc i hi (by omega)]
    omega

/-- All codes together take what the codes of the lengths 1 to 15 take. -/
theorem kraft_eq_below (h : ∀ len ∈ lens, len.toNat ≤ maxCodeBits) :
    lens.kraft = lens.below (maxCodeBits + 1) := by
  induction lens with
  | nil => simp [kraft, below]
  | cons len lens ih =>
    have hsum : kraft (len :: lens) = share len + kraft lens := by simp [kraft]
    rw [hsum, ih fun x hx => h x (by simp [hx])]
    simp only [below, count_cons, Nat.add_mul, Finset.sum_add_distrib, Nat.add_comm (share len)]
    refine Nat.add_left_cancel_iff.mpr ?_
    simp only [ite_mul, one_mul, zero_mul, Finset.sum_ite_eq, Finset.mem_Ico, share]
    have hlen := h len (by simp)
    by_cases hz : len = 0
    · simp [hz]
    · have : len.toNat ≠ 0 := fun h0 => hz (UInt8.toNat_inj.mp h0)
      simp only [hz, if_false]
      rw [if_pos (by omega)]

/-- Codes up to a length of a feasible code fit into the code space. -/
theorem Feasible.below_le (h : lens.Feasible) (hl : 1 ≤ l) : lens.below l ≤ 2 ^ maxCodeBits := by
  rcases Nat.le_total l (maxCodeBits + 1) with hle | hle
  · exact Nat.le_trans (below_mono hl hle) (kraft_eq_below h.le_max ▸ h.kraft_le)
  · rw [below_eq_of_count_eq_zero (by simp [maxCodeBits]) hle fun i hi _ =>
      count_eq_zero_of_lt h.le_max hi]
    exact kraft_eq_below h.le_max ▸ h.kraft_le

theorem Feasible.maxLength_le (h : lens.Feasible) : lens.maxLength ≤ maxCodeBits :=
  Lengths.maxLength_le h.le_max

end Lengths

/-! ## First codes and unused space -/

open Lengths

variable {lens : Lengths} {l : Nat}

/-- The first code of a length in closed form. -/
theorem firstCode_eq_sum (count : Nat → Nat) (hl : 1 ≤ l) :
    firstCode count l = ∑ i ∈ Finset.Ico 1 l, count i * 2 ^ (l - i) := by
  induction l, hl using Nat.le_induction with
  | base => simp [firstCode]
  | succ l hl ih =>
    rw [Finset.sum_Ico_succ_top hl, firstCode, if_neg (by omega), ih, Nat.mul_add, Finset.mul_sum]
    congr 1
    · refine Finset.sum_congr rfl fun i hi => ?_
      rw [Finset.mem_Ico] at hi
      rw [show l + 1 - i = (l - i) + 1 by omega, Nat.pow_succ]
      ring
    · rw [show l + 1 - l = 1 by omega]
      ring

/-- The codes of a length start where the shorter ones end. -/
theorem firstCode_mul (hl : 1 ≤ l) (hm : l ≤ maxCodeBits) :
    firstCode lens.count l * 2 ^ (maxCodeBits - l) = lens.below l := by
  rw [firstCode_eq_sum _ hl, Finset.sum_mul, below]
  refine Finset.sum_congr rfl fun i hi => ?_
  rw [Finset.mem_Ico] at hi
  rw [Nat.mul_assoc, ← Nat.pow_add, show l - i + (maxCodeBits - l) = maxCodeBits - i by omega]

/-- The code space left at a length is what the codes up to that length do not take. -/
theorem unused_mul (lens : Lengths) (hm : l ≤ maxCodeBits) :
    unused lens.count l * 2 ^ (maxCodeBits - l) = 2 ^ maxCodeBits - (lens.below (l + 1) : Int) := by
  induction l with
  | zero => simp [unused]
  | succ l ih =>
    have hp : (2 : Int) ^ (maxCodeBits - l) = 2 * 2 ^ (maxCodeBits - (l + 1)) := by
      rw [show maxCodeBits - l = (maxCodeBits - (l + 1)) + 1 by omega, pow_succ, mul_comm]
    have ih := ih (by omega)
    rw [unused, below_succ (by omega), sub_mul, mul_assoc, mul_left_comm, ← hp, ih]
    push_cast
    ring

theorem unused_neg_iff (hm : l ≤ maxCodeBits) :
    unused lens.count l < 0 ↔ 2 ^ maxCodeBits < lens.below (l + 1) := by
  have h := unused_mul lens hm
  have hp : (0 : Int) < 2 ^ (maxCodeBits - l) := by positivity
  constructor
  · intro hneg
    have := mul_neg_of_neg_of_pos hneg hp
    rw [h] at this
    have h2 : ((2 ^ maxCodeBits : Nat) : Int) < lens.below (l + 1) := by push_cast; linarith
    exact_mod_cast h2
  · intro hlt
    by_contra hnn
    have := mul_nonneg (not_lt.mp hnn) hp.le
    rw [h] at this
    have h2 : ((2 ^ maxCodeBits : Nat) : Int) < lens.below (l + 1) := by exact_mod_cast hlt
    push_cast at h2
    linarith

/-- The code space left at a length in closed form. -/
theorem unused_eq_sub (count : Nat → Nat) (l : Nat) :
    unused count l = 2 ^ l - (∑ i ∈ Finset.Icc 1 l, count i * 2 ^ (l - i) : Nat) := by
  induction l with
  | zero => rfl
  | succ l ih =>
    have hdouble : ∑ i ∈ Finset.Icc 1 l, count i * 2 ^ (l + 1 - i) =
        2 * ∑ i ∈ Finset.Icc 1 l, count i * 2 ^ (l - i) := by
      rw [Finset.mul_sum]
      refine Finset.sum_congr rfl fun i hi => ?_
      rw [Finset.mem_Icc] at hi
      rw [show l + 1 - i = (l - i) + 1 by omega, Nat.pow_succ]
      ring
    rw [unused, ih, Finset.sum_Icc_succ_top (by omega), hdouble, Nat.sub_self]
    push_cast
    ring

/-- The space is exhausted at a length if the codes up to it would need more than all of that length. -/
theorem unused_neg_iff_sum (count : Nat → Nat) (l : Nat) :
    unused count l < 0 ↔ 2 ^ l < ∑ i ∈ Finset.Icc 1 l, count i * 2 ^ (l - i) := by
  rw [unused_eq_sub, sub_neg]
  exact_mod_cast Iff.rfl

/-- The codes of a length, from the first one on, are all within the code space. -/
theorem Lengths.Feasible.firstCode_add_le (h : lens.Feasible) (hl : 1 ≤ l) (hm : l ≤ maxCodeBits) :
    firstCode lens.count l + lens.count l ≤ 2 ^ l := by
  have hp : 2 ^ maxCodeBits = 2 ^ l * 2 ^ (maxCodeBits - l) := by
    rw [← Nat.pow_add, Nat.add_sub_cancel' hm]
  have hle := h.below_le (l := l + 1) (by omega)
  rw [below_succ hl, ← firstCode_mul hl hm, ← Nat.add_mul, hp] at hle
  exact Nat.le_of_mul_le_mul_right hle (Nat.two_pow_pos _)

theorem Lengths.Feasible.unused_nonneg (h : lens.Feasible) (hm : l ≤ maxCodeBits) :
    0 ≤ unused lens.count l := by
  rw [← not_lt, unused_neg_iff hm, Nat.not_lt]
  exact h.below_le (by omega)

/-- The space is exhausted at no length up to the longest exactly if the Kraft sum is at most 1:
longer codes only take more. -/
theorem exhausted?_eq_none_iff {maxBits : Nat} (h : ∀ len ∈ lens, len.toNat ≤ maxBits)
    (hm : maxBits ≤ maxCodeBits) :
    exhausted? lens.count maxBits = none ↔ lens.kraft ≤ 2 ^ maxCodeBits := by
  have hk : lens.kraft = lens.below (maxBits + 1) := by
    rw [kraft_eq_below fun len hl => Nat.le_trans (h len hl) hm]
    exact below_eq_of_count_eq_zero (by omega) (by omega) fun i hi _ =>
      count_eq_zero fun len hl => by have := h len hl; omega
  rw [exhausted?, List.find?_eq_none]
  simp only [List.mem_range'_1, decide_eq_true_eq, and_imp]
  constructor
  · intro hn
    rcases Nat.eq_zero_or_pos maxBits with h0 | hpos
    · rw [hk, h0]; simp
    · have := hn maxBits hpos (by omega)
      rwa [unused_neg_iff hm, Nat.not_lt, ← hk] at this
  · intro hle l h1 hlt
    rw [unused_neg_iff (by omega), Nat.not_lt]
    exact Nat.le_trans (below_mono (by omega) (by omega)) (hk ▸ hle)

end DeflateHeader
