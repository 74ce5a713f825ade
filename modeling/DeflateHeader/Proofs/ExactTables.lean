import DeflateHeader.Proofs.AlphabetAnswers
import DeflateHeader.Proofs.SlotStorage

/-!
# Tables answer exactly by the canonical code

`lens.Matches key s` says that the low bits of a key are the code of the symbol `s`. For lengths that are
accepted, every table for decoding looks up the matching symbol and nothing else, and it is the same
function in every table with room for the code, whatever was there before
(`LookupTable.lookup_of_accepted`). A table for encoding of any size holds the code of each of its
symbols (`CodeTable.code_of_accepted`), so that the two are inverse to each other wherever both know a
symbol.

Both builds sort the list of code words, each in its own order. No build depends on what is in the
list, so they may come in any order and as often as one likes.
-/

namespace DeflateHeader

open Lengths

namespace Lengths

variable {lens : Lengths} {key s t : Nat}

/-- The low bits of `key` are the code of the symbol `s`, which has one. -/
def Matches (lens : Lengths) (key s : Nat) : Prop := ∃ l, lens.HasCode s (key % 2 ^ l) l

theorem matches_iff : lens.Matches key s ↔
    0 < lens.lengthOf s ∧ Bits.ofNat (lens.lengthOf s) key = lens.codeBits s := by
  simp [Matches, hasCode_mod_iff]

instance (lens : Lengths) (key s : Nat) : Decidable (lens.Matches key s) :=
  decidable_of_iff _ matches_iff.symm

theorem lengthOf_pos_iff (h : s < lens.length) : 0 < lens.lengthOf s ↔ lens[s] ≠ 0 := by
  rw [lengthOf_eq_getElem h, Nat.pos_iff_ne_zero, ne_eq, ne_eq, ← UInt8.toNat_inj]
  rfl

theorem matches_iff_getElem (h : s < lens.length) : lens.Matches key s ↔
    lens[s] ≠ 0 ∧ key % 2 ^ lens[s].toNat = bitReverse (lens.codeNumber s) lens[s].toNat := by
  rw [← lengthOf_pos_iff h, ← lengthOf_eq_getElem h]
  simp [Matches, hasCode_iff, toNat_codeBits]

/-- At most one symbol matches a key. -/
theorem Matches.unique (hf : lens.Feasible) (hs : lens.Matches key s) (ht : lens.Matches key t) :
    s = t := by
  obtain ⟨hs, hbits⟩ := matches_iff.mp hs
  obtain ⟨ht, hbits'⟩ := matches_iff.mp ht
  exact eq_of_isPrefix hf hs ht (hbits ▸ Bits.ofNat_isPrefix (hf.lengthOf_le s) key)
    (hbits' ▸ Bits.ofNat_isPrefix (hf.lengthOf_le t) key)

end Lengths

namespace LookupTable

variable {lens : Lengths} {t : LookupTable} {key s : Nat}

theorem Decodes.lookup_eq_some_iff (h : t.Decodes lens) :
    t.lookup key = some s ↔ lens.Matches key s := by
  rw [matches_iff]
  exact h.lookup_iff key s

theorem Decodes.lookup_eq_none_iff (h : t.Decodes lens) :
    t.lookup key = none ↔ ∀ s, ¬ lens.Matches key s := by
  rw [Option.eq_none_iff_forall_ne_some]
  exact forall_congr' fun s => not_congr h.lookup_eq_some_iff

/-- Two tables for the same lengths look up the same. -/
theorem Decodes.lookup_congr {t' : LookupTable} (h : t.Decodes lens) (h' : t'.Decodes lens) :
    t'.lookup = t.lookup := by
  funext key
  refine Option.ext fun s => ?_
  rw [h'.lookup_eq_some_iff, h.lookup_eq_some_iff]

theorem lookup_mod (t : LookupTable) (key : Nat) :
    t.lookup (key % 2 ^ t.maxBits) = t.lookup key := by
  rw [lookup, lookup, slotCount_eq, Nat.mod_mod]

/-- For up to `2 ^ 15` lengths that are accepted there is one function from keys to symbols, and every
table that is built from the lengths looks up by this function. It finds the symbol that matches a key,
of which there is at most one, and nothing if there is none; bits above the longest code do not
matter. The table may hold anything before if it has room for the code, and so may its storage and
the list of code words. -/
theorem lookup_of_accepted {lens : Lengths} {book words : CodeBook} {n : Nat}
    (hn : lens.length ≤ slotSymbols) (haccept : CodeBook.assign lens book = .ok n words) :
    ∃ answer : Nat → Option Nat,
      (∀ key s, answer key = some s ↔ lens.Matches key s) ∧
      (∀ key s s', lens.Matches key s → lens.Matches key s' → s = s') ∧
      (∀ key, answer key = none ↔ ∀ s, ¬ lens.Matches key s) ∧
      (∀ key, answer (key % 2 ^ n) = answer key) ∧
      (∀ (t : LookupTable) (earlier : CodeBook), slotCount n ≤ t.capacity →
        ∃ t' sorted, build lens (t, earlier) = .ok n (t', sorted) ∧ t'.maxBits = n ∧
          t'.lookup = answer) ∧
      ∀ (store : SlotStorage) (earlier : CodeBook), slotCount n ≤ store.slots.size →
        ∃ store' sorted, SlotStorage.build lens (store, earlier) = .ok n (store', sorted) ∧
          store'.maxBits = n ∧ store'.lookup = answer := by
  obtain ⟨hf, rfl, -⟩ := CodeBook.assign_inv haccept
  obtain ⟨t₀, book₀, -, h₀, -⟩ := build_ok (t := { capacity := slotCount lens.maxLength }) [] hf hn
    (Nat.le_refl _)
  refine ⟨t₀.lookup, fun key s => h₀.lookup_eq_some_iff, fun key s s' => Matches.unique hf,
    fun key => h₀.lookup_eq_none_iff, fun key => ?_, fun t earlier hcap => ?_,
    fun store earlier hsize => ?_⟩
  · rw [← h₀.maxBits_eq]
    exact lookup_mod t₀ key
  · obtain ⟨t', sorted, hbuild, h, -⟩ := build_ok earlier hf hn hcap
    exact ⟨t', sorted, hbuild, h.maxBits_eq, h₀.lookup_congr h⟩
  · obtain ⟨t', sorted, hbuild, h, -⟩ :=
      build_ok (t := { capacity := store.slots.size }) earlier hf hn hsize
    obtain ⟨store', hbuild', hmax, hlookup⟩ := SlotStorage.build_of_build hbuild store hsize
    exact ⟨store', sorted, hbuild', hmax.trans h.maxBits_eq,
      hlookup.trans (h₀.lookup_congr h)⟩

/-- The lengths 2, 0 and 3 in storage that is full of marked words: the code of the last symbol is
found in keys that end in its bits, and a key that begins no code finds nothing. -/
theorem lookup_of_accepted_incomplete : ∃ store' sorted,
    SlotStorage.build [2, 0, 3] (⟨Array.replicate 16 0xFFFF, 4⟩, [⟨7, 9⟩]) =
      .ok 3 (store', sorted) ∧
    store'.lookup 0b1010 = some 2 ∧ store'.lookup 0b0100 = some 0 ∧ store'.lookup 0b0001 = none := by
  have hf : Feasible [2, 0, 3] := by decide
  obtain ⟨answer, hsome, -, hnone, -, -, hstore⟩ :=
    lookup_of_accepted (by decide) (CodeBook.assign_ok hf [⟨7, 9⟩])
  obtain ⟨store', sorted, hbuild, -, rfl⟩ := hstore ⟨Array.replicate 16 0xFFFF, 4⟩ [⟨7, 9⟩]
    (by decide)
  refine ⟨store', sorted, hbuild, (hsome _ 2).mpr (by decide +kernel),
    (hsome _ 0).mpr (by decide +kernel), (hnone _).mpr fun s hs => ?_⟩
  have hlt := lt_length_of_pos (matches_iff.mp hs).1
  simp only [List.length_cons, List.length_nil] at hlt
  have hcases : s = 0 ∨ s = 1 ∨ s = 2 := by omega
  rcases hcases with rfl | rfl | rfl
  · exact absurd hs (by decide +kernel)
  · exact absurd hs (by decide +kernel)
  · exact absurd hs (by decide +kernel)

end LookupTable

namespace CodeTable

variable {lens : Lengths} {t : CodeTable} {s : Nat}

theorem code_eq_none (h : t.size ≤ s) : t.code s = none := Array.getElem?_eq_none h

theorem Encodes.code_eq (h : t.Encodes lens) (hs : s < t.size) (hlen : s < lens.length) :
    t.code s = some (if lens[s] = 0 then 0 else bitReverse (lens.codeNumber s) lens[s].toNat) := by
  rw [h s hs, toNat_codeBits]
  by_cases hz : lens[s] = 0
  · rw [if_pos hz, if_pos (by rw [lengthOf_eq_getElem hlen, hz]; rfl)]
  · have hpos := (lengthOf_pos_iff hlen).mpr hz
    rw [if_neg hz, if_neg (by omega), lengthOf_eq_getElem hlen]

theorem Encodes.code_eq_zero (h : t.Encodes lens) (hs : s < t.size)
    (hz : ∀ h : s < lens.length, lens[s] = 0) : t.code s = some 0 := by
  by_cases hlen : s < lens.length
  · rw [h.code_eq hs hlen, if_pos (hz hlen)]
  · rw [h s hs, if_pos (lengthOf_eq_zero (Nat.le_of_not_lt hlen))]

/-- A key matches a symbol if its low bits are what the table holds for the symbol. -/
theorem Encodes.matches_iff (h : t.Encodes lens) (hs : s < t.size) (hlen : s < lens.length)
    (key : Nat) : lens.Matches key s ↔
      lens[s] ≠ 0 ∧ t.code s = some (key % 2 ^ lens[s].toNat) := by
  rw [matches_iff_getElem hlen, h.code_eq hs hlen]
  refine and_congr_right fun hz => ?_
  rw [if_neg hz, Option.some.injEq]
  exact eq_comm

/-- For up to `2 ^ 16` lengths that are accepted, a table of any size is built from any list of code
words. It has no code for a symbol outside, the canonical code for each of its symbols that has a
length, and 0 for the others, whether there are more symbols or more lengths. A lookup table with
room for the code is built from the same lengths, again from any list; for symbols that both know, its
lookups and these codes are inverse to each other. -/
theorem code_of_accepted {lens : Lengths} {book words : CodeBook} {n : Nat}
    (hn : lens.length ≤ symbolRange) (haccept : CodeBook.assign lens book = .ok n words)
    (t : CodeTable) (earlier : CodeBook) :
    ∃ t', build lens (t, earlier) = .ok n (t', words) ∧ t'.size = t.size ∧
      (∀ s, t.size ≤ s → t'.code s = none) ∧
      (∀ s < t.size, ∀ h : s < lens.length, lens[s] ≠ 0 →
        t'.code s = some (bitReverse (lens.codeNumber s) lens[s].toNat)) ∧
      (∀ s < t.size, (∀ h : s < lens.length, lens[s] = 0) → t'.code s = some 0) ∧
      (lens.length ≤ slotSymbols →
        ∀ (d : LookupTable) (earlier : CodeBook), slotCount n ≤ d.capacity →
          ∃ d' sorted, LookupTable.build lens (d, earlier) = .ok n (d', sorted) ∧
            ∀ key s, s < t.size → ∀ h : s < lens.length,
              (d'.lookup key = some s ↔
                lens[s] ≠ 0 ∧ t'.code s = some (key % 2 ^ lens[s].toNat))) := by
  obtain ⟨hf, rfl, rfl⟩ := CodeBook.assign_inv haccept
  obtain ⟨t', hbuild, h, hsize⟩ := build_ok t earlier hf hn
  rw [← hsize]
  refine ⟨t', hbuild, rfl, fun s hs => code_eq_none hs, fun s hs hlen hz => ?_,
    fun s hs hz => h.code_eq_zero hs hz, fun hslots d earlier hcap => ?_⟩
  · rw [h.code_eq hs hlen, if_neg hz]
  · obtain ⟨d', sorted, hbuild', hd, -⟩ := LookupTable.build_ok earlier hf hslots hcap
    refine ⟨d', sorted, hbuild', fun key s hs hlen => ?_⟩
    rw [hd.lookup_eq_some_iff, h.matches_iff hs hlen]

/-- The lengths 2, 0 and 3 in a table of four symbols, with a list of words that another table has left:
the second symbol has no code, and neither has the fourth, which has no length. -/
theorem code_of_accepted_four : ∃ t' d' sorted,
    build [2, 0, 3] (⟨#[7, 7, 7, 7]⟩, [⟨5, 3⟩, ⟨4, 1⟩]) = .ok 3 (t', [⟨0, 0⟩, ⟨2, 2⟩]) ∧
    LookupTable.build [2, 0, 3] ({ capacity := 8 }, [⟨0, 0⟩, ⟨2, 2⟩]) = .ok 3 (d', sorted) ∧
    t'.code 1 = some 0 ∧ t'.code 2 = some 2 ∧ t'.code 3 = some 0 ∧ t'.code 4 = none ∧
    d'.lookup 0b1010 = some 2 := by
  have hf : Feasible [2, 0, 3] := by decide
  have hwords : Lengths.words [2, 0, 3] = [⟨0, 0⟩, ⟨2, 2⟩] := by decide +kernel
  have haccept := CodeBook.assign_ok hf []
  rw [hwords] at haccept
  obtain ⟨t', hbuild, -, hnone, hcode, hzero, hlookup⟩ :=
    code_of_accepted (by decide) haccept ⟨#[7, 7, 7, 7]⟩ [⟨5, 3⟩, ⟨4, 1⟩]
  obtain ⟨d', sorted, hbuild', hinverse⟩ :=
    hlookup (by decide) { capacity := 8 } [⟨0, 0⟩, ⟨2, 2⟩] (by decide)
  have htwo : t'.code 2 = some 2 :=
    (hcode 2 (by decide) (by decide) (by decide)).trans (by decide +kernel)
  exact ⟨t', d', sorted, hbuild, hbuild', hzero 1 (by decide) (by decide), htwo,
    hzero 3 (by decide) (by decide), hnone 4 (by decide),
    (hinverse _ 2 (by decide) (by decide)).mpr ⟨by decide, htwo.trans (by decide)⟩⟩

end CodeTable
end DeflateHeader
