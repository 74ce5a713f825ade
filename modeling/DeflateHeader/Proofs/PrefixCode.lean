import DeflateHeader.Proofs.CanonicalCode

/-!
# The assigned codes are the canonical prefix code

`CodeBook.assign` lists one code word for each symbol that has a length, in the order of the symbols
(`Lengths.words_eq`). The code in a word is the canonical one, `codeNumber`, with its bits turned around into
stream order. A key in stream order is compared from its low bits on: a code is not among the low bits
of another one (`bitReverse_mod_ne`), since as bit strings none begins another. As numbers, put flush
with the left of 15 bits, the codes grow with their length, and with the symbol within one length
(`Precedes.aligned_lt`).
-/

namespace DeflateHeader

namespace Lengths

variable {lens : Lengths} {s t : Nat}

/-- A symbol's code with its last bit followed by zeros up to 15 bits. -/
def aligned (lens : Lengths) (s : Nat) : Nat :=
  lens.codeNumber s <<< (maxCodeBits - lens.lengthOf s)

/-- The low bits of a code are not another code of that many bits. -/
theorem bitReverse_mod_ne (hf : lens.Feasible) (hne : s ≠ t) (hs : 0 < lens.lengthOf s)
    (hle : lens.lengthOf s ≤ lens.lengthOf t) :
    bitReverse (lens.codeNumber t) (lens.lengthOf t) % 2 ^ lens.lengthOf s ≠
      bitReverse (lens.codeNumber s) (lens.lengthOf s) := by
  intro heq
  rw [← toNat_codeBits, ← toNat_codeBits, ← Bits.toNat_take (by simpa using hle)] at heq
  have hbits : (lens.codeBits t).take (lens.lengthOf s) = lens.codeBits s :=
    Bits.eq_of_toNat_eq (by simpa using hle) heq
  exact hne (eq_of_codeBits_isPrefix hf hs (by omega) (hbits ▸ List.take_prefix ..))

theorem Precedes.aligned_lt (h : lens.Precedes s t) (hs : 0 < lens.lengthOf s)
    (hm : lens.lengthOf t ≤ maxCodeBits) : lens.aligned s < lens.aligned t := by
  have hnext := h.codeNumber_succ_mul_le hs hm
  have hp := Nat.two_pow_pos (maxCodeBits - lens.lengthOf s)
  rw [aligned, aligned, Nat.shiftLeft_eq, Nat.shiftLeft_eq]
  rw [Nat.succ_mul] at hnext
  omega

end Lengths

open Lengths

namespace CodeBook

/-- What is listed for lengths that are accepted: in ascending order one word for each symbol that has a
length, with its canonical code in stream order. Every code fits its length, is not among the low
bits of another code of that length or a longer one, and comes before all codes of longer lengths
and those of its length that belong to greater symbols. -/
theorem canonical_of_assign {lens : Lengths} {book words : CodeBook} {n : Nat}
    (hn : lens.length ≤ symbolRange) (h : assign lens book = .ok n words) :
    words = ((List.range lens.length).filter fun s => 0 < lens.lengthOf s).map (fun s =>
      ⟨bitReverse (lens.codeNumber s) (lens.lengthOf s), s⟩) ∧
    (∀ s, 0 < lens.lengthOf s → lens.codeNumber s < 2 ^ lens.lengthOf s) ∧
    (∀ s t, s ≠ t → 0 < lens.lengthOf s → lens.lengthOf s ≤ lens.lengthOf t →
      bitReverse (lens.codeNumber t) (lens.lengthOf t) % 2 ^ lens.lengthOf s ≠
        bitReverse (lens.codeNumber s) (lens.lengthOf s)) ∧
    ∀ s t, 0 < lens.lengthOf s → 0 < lens.lengthOf t →
      lens.lengthOf s < lens.lengthOf t ∨ lens.lengthOf s = lens.lengthOf t ∧ s < t →
      lens.aligned s < lens.aligned t := by
  obtain ⟨hf, -, rfl⟩ := assign_inv h
  refine ⟨words_eq hn, fun s hs => codeNumber_lt hf hs, fun s t hne hs hle => ?_,
    fun s t hs _ hlex => ?_⟩
  · exact bitReverse_mod_ne hf hne hs hle
  · exact Precedes.aligned_lt hlex hs (hf.lengthOf_le t)

/-- Lengths 3, 3, 3, 3, 3, 2, 4, 4 give the codes 010, 011, 100, 101, 110, 00, 1110 and 1111. A symbol
without a length in between has no word. -/
theorem canonical_of_assign_eight : ∃ words,
    assign [3, 3, 3, 0, 3, 3, 2, 4, 4] [] = .ok 4 words ∧
    words = [⟨0b010, 0⟩, ⟨0b110, 1⟩, ⟨0b001, 2⟩, ⟨0b101, 4⟩, ⟨0b011, 5⟩, ⟨0b00, 6⟩, ⟨0b0111, 7⟩,
      ⟨0b1111, 8⟩] ∧
    aligned [3, 3, 3, 0, 3, 3, 2, 4, 4] 6 < aligned [3, 3, 3, 0, 3, 3, 2, 4, 4] 0 := by
  have hf : Feasible [3, 3, 3, 0, 3, 3, 2, 4, 4] := by decide
  have hok := assign_ok hf []
  obtain ⟨hwords, -, -, horder⟩ := canonical_of_assign (by decide) hok
  refine ⟨_, hok, hwords.trans (by decide +kernel), ?_⟩
  exact horder 6 0 (by decide) (by decide) (.inl (by decide))

end CodeBook
end DeflateHeader
