import DeflateHeader.Proofs.CheckedCodes
import Mathlib.Order.Bounds.Basic

/-!
# Which lengths are accepted

Code lengths are rejected for one of two reasons: one of them is above 15, or the codes need more
code space than there is. `CodeBook.assign_verdict` says which lengths that concerns and what is
reported. The loop that looks for an exhausted length leaves off at the first one, so it is to be shown
that nothing is missed: longer codes only take more of the space, and what is missing at one length is
missing at all longer ones, twice as much at each (`exhausted?_eq_none_iff`). The length that is found
is the smallest at which the codes would not fit (`isLeast_of_exhausted`).

All of this is counted with machine words. Lengths that are accepted keep the space that is left and
the first codes within the `2 ^ l` codes of a length `l`, so nothing overflows.
-/

namespace DeflateHeader

open Lengths

variable {lens : Lengths}

/-- The codes of up to `l` bits do not fit: they take more than the `2 ^ l` codes of that length. -/
def Lengths.Overfull (lens : Lengths) (l : Nat) : Prop :=
  1 ≤ l ∧ 2 ^ l < ∑ i ∈ Finset.Icc 1 l, lens.count i * 2 ^ (l - i)

/-- The length that is found is the smallest that is overfull, of all lengths. -/
theorem isLeast_of_exhausted {maxBits l : Nat} (h : exhausted? lens.count maxBits = some l) :
    IsLeast {l | lens.Overfull l} l := by
  rw [exhausted?, List.find?_range'_eq_some] at h
  obtain ⟨hneg, hmem, hbefore⟩ := h
  rw [decide_eq_true_eq, unused_neg_iff_sum] at hneg
  refine ⟨⟨(List.mem_range'_1.mp hmem).1, hneg⟩, fun k hk => ?_⟩
  by_contra hlt
  have hnot := hbefore k hk.1 (by omega)
  simp only [Bool.not_eq_true', decide_eq_false_iff_not, unused_neg_iff_sum] at hnot
  exact hnot hk.2

namespace CodeBook

/-- The verdict on any lengths. The first one above 15 is reported. If there is none, the lengths are
accepted exactly if their Kraft sum is at most 1, and the longest one is returned; otherwise the
smallest length is reported at which they are overfull, with its count. With words of 32 bits for counts
and codes and a signed word of 64 bits for the space that is left, the same is computed, and
lengths that are accepted leave between zero and `2 ^ l` codes at each length `l` and begin and end the
codes of a length within these. -/
theorem assign_verdict (lens : Lengths) (hn : lens.length < 2 ^ 32) (book : CodeBook) :
    (∀ before len after, lens = before ++ len :: after →
      (∀ x ∈ before, x.toNat ≤ maxCodeBits) → maxCodeBits < len.toNat →
      assign lens book = .error (.invalid (.codeLengthTooLong len.toNat)) book) ∧
    ((∀ len ∈ lens, len.toNat ≤ maxCodeBits) →
      ((∃ n words, assign lens book = .ok n words) ↔ lens.kraft ≤ 2 ^ maxCodeBits) ∧
      (2 ^ maxCodeBits < lens.kraft → ∃ l, IsLeast {l | lens.Overfull l} l ∧
        assign lens book = .error (.invalid (.oversubscribed l (lens.count l))) book)) ∧
    Checked.assign lens book = assign lens book ∧
    ∀ n words, assign lens book = .ok n words → n = lens.maxLength ∧
      ∀ l ≤ maxCodeBits, 0 ≤ unused lens.count l ∧ unused lens.count l ≤ (2 ^ l : Nat) ∧
        firstCode lens.count l + (if l = 0 then 0 else lens.count l) ≤ 2 ^ l := by
  refine ⟨fun before len after heq hbefore hlen => ?_, fun hm => ⟨⟨?_, fun hk => ?_⟩, fun hk => ?_⟩,
    congrFun (Checked.assign_eq hn) book, fun n words hok => ?_⟩
  · refine assign_tooLong (List.find?_eq_some_iff_append.mpr ⟨by simpa using hlen, ?_⟩) book
    exact ⟨before, after, heq, fun x hx => by simpa using hbefore x hx⟩
  · rintro ⟨n, words, hok⟩
    exact (feasible_of_assign hok).kraft_le
  · exact ⟨_, _, assign_ok ⟨hm, hk⟩ book⟩
  · obtain ⟨l, hl⟩ := exists_exhausted hm fun hf => Nat.not_lt.mpr hf.kraft_le hk
    exact ⟨l, isLeast_of_exhausted hl, assign_exhausted hm hl book⟩
  · obtain ⟨hf, rfl, -⟩ := assign_inv hok
    refine ⟨rfl, fun l hl => ⟨hf.unused_nonneg hl, Checked.unused_le lens.count l, ?_⟩⟩
    split
    · subst l
      exact Nat.zero_le _
    · exact hf.firstCode_add_le (by omega) hl

/-- Three codes of two bits leave room for two of three bits; a third one is one too many, although
there are eight codes of that length. -/
theorem assign_verdict_overfull :
    assign [2, 2, 2, 3, 3, 3] [⟨1, 7⟩] = .error (.invalid (.oversubscribed 3 3)) [⟨1, 7⟩] := by
  obtain ⟨-, hverdict, -⟩ := assign_verdict [2, 2, 2, 3, 3, 3] (by decide) [⟨1, 7⟩]
  obtain ⟨l, hleast, herr⟩ := (hverdict (by decide +kernel)).2 (by decide)
  have hle : l ≤ 3 := hleast.2 ⟨by decide, by decide +kernel⟩
  have hge : ¬ l ≤ 2 := by
    intro hl
    obtain ⟨hpos, hlt⟩ := hleast.1
    have : l = 1 ∨ l = 2 := by omega
    rcases this with rfl | rfl
    · exact absurd hlt (by decide)
    · exact absurd hlt (by decide)
  obtain rfl : l = 3 := by omega
  exact herr

end CodeBook
end DeflateHeader
