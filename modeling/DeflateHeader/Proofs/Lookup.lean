import DeflateHeader.Code.LookupTable
import DeflateHeader.Proofs.CanonicalCode

/-!
# Lookup tables decode the canonical code

A word owns the slots whose numbers end in its code (`SizedWord.Owns`). Placing a word in a table
in which its slots are empty fills these slots and no others (`place_ok`). No two words of a
feasible code own a slot together, so once all words are placed, in any order, a slot shows
the word that owns it (`Filled`, `foldlM_place`).

`Decodes t lens` is what a table for `lens` is good for: a lookup gives the symbol whose code the
key begins with. `build` makes such a table from every feasible set of lengths that fits it
(`LookupTable.build_ok`), whatever the table held before.
-/

namespace DeflateHeader

open Lengths

theorem slotCount_eq (bits : Nat) : slotCount bits = 2 ^ bits := rfl

namespace SizedWord

/-- The slots that a word is to fill: those whose numbers end in its code. -/
def Owns (w : SizedWord) (slot : Nat) : Prop := slot % 2 ^ w.length = w.word.code

instance (w : SizedWord) (slot : Nat) : Decidable (w.Owns slot) := inferInstanceAs (Decidable (_ = _))

/-- Two words that own no slot together. -/
def Apart (w w' : SizedWord) : Prop := ∀ slot, ¬ (w.Owns slot ∧ w'.Owns slot)

theorem Apart.symm {w w' : SizedWord} (h : w.Apart w') : w'.Apart w := fun slot hs => h slot hs.symm

end SizedWord

namespace LookupTable

variable {maxBits symbol : Nat} {slots : Array (Option Nat)} {w : SizedWord}

/-! ## Placing one word -/

theorem fillEmpty_of_some {k s : Nat} (h : slots[k]? = some (some s)) :
    fillEmpty symbol slots k = some slots := by
  rw [fillEmpty, h]

theorem fillEmpty_of_none {k : Nat} (h : slots[k]? = some none) :
    fillEmpty symbol slots k = some (slots.setIfInBounds k (some symbol)) := by
  rw [fillEmpty, h]
  exact if_pos (Array.getElem?_eq_some_iff.mp h).1

/-- Filling empty slots one after the other. A slot that comes twice is filled the first time. -/
theorem foldlM_fillEmpty (symbol : Nat) {ks : List Nat} (h : ∀ k ∈ ks, k < slots.size) :
    ∃ slots', ks.foldlM (fillEmpty symbol) slots = some slots' ∧ slots'.size = slots.size ∧
      ∀ k, slots'[k]? = if k ∈ ks ∧ slots[k]? = some none then some (some symbol) else slots[k]? := by
  induction ks generalizing slots with
  | nil => exact ⟨slots, rfl, rfl, by simp⟩
  | cons k ks ih =>
    have hk : k < slots.size := h k (by simp)
    obtain ⟨slots₁, hf, hsize, hget⟩ : ∃ slots₁, fillEmpty symbol slots k = some slots₁ ∧
        slots₁.size = slots.size ∧ ∀ i, slots₁[i]? =
          if i = k ∧ slots[i]? = some none then some (some symbol) else slots[i]? := by
      have hx := Array.getElem?_eq_getElem hk
      cases ho : slots[k] with
      | some x =>
        rw [ho] at hx
        refine ⟨slots, fillEmpty_of_some hx, rfl, fun i => ?_⟩
        rw [if_neg]
        rintro ⟨rfl, hi⟩
        simp [hx] at hi
      | none =>
        rw [ho] at hx
        refine ⟨_, fillEmpty_of_none hx, Array.size_setIfInBounds .., fun i => ?_⟩
        rw [Array.getElem?_setIfInBounds]
        by_cases hi : k = i
        · subst hi; rw [if_pos rfl, if_pos hk, if_pos ⟨rfl, hx⟩]
        · rw [if_neg hi, if_neg fun hc => hi hc.1.symm]
    have hks : ∀ i ∈ ks, i < slots₁.size := fun i hi => by
      rw [hsize]; exact h i (by simp [hi])
    obtain ⟨slots', hfold, hsize', hget'⟩ := ih hks
    refine ⟨slots', by simp [hf, hfold], by omega, fun i => ?_⟩
    rw [hget', hget]
    grind

/-- In the numbers of the padded slots, the bits above the code count from 1 on. -/
theorem padded_eq (hc : w.word.code < 2 ^ w.length) :
    padded maxBits w = (List.range' 1 (slotCount (maxBits - w.length) - 1)).map fun pad =>
      pad * 2 ^ w.length + w.word.code :=
  List.map_congr_left fun pad _ => by rw [← Nat.shiftLeft_add_eq_or_of_lt hc, Nat.shiftLeft_eq]

/-- A word's own slot and the padded ones are the slots that it owns. -/
theorem mem_padded_iff (hl : w.length ≤ maxBits) (hc : w.word.code < 2 ^ w.length) (k : Nat) :
    k = w.word.code ∨ k ∈ padded maxBits w ↔ k < slotCount maxBits ∧ w.Owns k := by
  have hp : 2 ^ maxBits = 2 ^ (maxBits - w.length) * 2 ^ w.length := by
    rw [← Nat.pow_add, Nat.sub_add_cancel hl]
  have hone : 1 ≤ 2 ^ (maxBits - w.length) := Nat.one_le_two_pow
  simp only [padded_eq hc, List.mem_map, List.mem_range'_1, slotCount_eq, SizedWord.Owns]
  constructor
  · intro h
    obtain ⟨pad, hlt, rfl⟩ : ∃ pad, pad < 2 ^ (maxBits - w.length) ∧
        k = pad * 2 ^ w.length + w.word.code := by
      rcases h with rfl | ⟨pad, ⟨-, hlt⟩, rfl⟩
      · exact ⟨0, hone, by simp⟩
      · exact ⟨pad, by omega, rfl⟩
    refine ⟨?_, by rw [Nat.mul_add_mod_self_right, Nat.mod_eq_of_lt hc]⟩
    calc pad * 2 ^ w.length + w.word.code
        < pad * 2 ^ w.length + 2 ^ w.length := by omega
      _ = (pad + 1) * 2 ^ w.length := by ring
      _ ≤ 2 ^ maxBits := by rw [hp]; exact Nat.mul_le_mul_right _ hlt
  · rintro ⟨hlt, hmod⟩
    have hdiv := Nat.div_add_mod k (2 ^ w.length)
    rw [hmod, Nat.mul_comm] at hdiv
    rcases Nat.eq_zero_or_pos (k / 2 ^ w.length) with h0 | hpos
    · left; rw [h0, Nat.zero_mul] at hdiv; omega
    · right
      refine ⟨k / 2 ^ w.length, ⟨hpos, ?_⟩, hdiv⟩
      have : k / 2 ^ w.length < 2 ^ (maxBits - w.length) := by
        rw [Nat.div_lt_iff_lt_mul (Nat.two_pow_pos _), ← hp]; exact hlt
      omega

/-- A word all of whose slots are in a table of `2 ^ maxBits` slots. -/
structure Inside (maxBits : Nat) (w : SizedWord) : Prop where
  length_le : w.length ≤ maxBits
  code_lt : w.word.code < slotCount maxBits

theorem Inside.padded_lt (h : Inside maxBits w) {k : Nat} (hk : k ∈ padded maxBits w) :
    k < slotCount maxBits := by
  obtain ⟨pad, hpad, rfl⟩ := List.mem_map.mp hk
  rw [List.mem_range'_1, slotCount_eq] at hpad
  refine Nat.or_lt_two_pow ?_ h.code_lt
  calc pad <<< w.length
      = pad * 2 ^ w.length := Nat.shiftLeft_eq ..
    _ < 2 ^ (maxBits - w.length) * 2 ^ w.length :=
        Nat.mul_lt_mul_of_pos_right (by omega) (Nat.two_pow_pos _)
    _ = 2 ^ maxBits := by rw [← Nat.pow_add, Nat.sub_add_cancel h.length_le]

/-- What a slot keeps of a word. -/
def entry (w : SizedWord) : Nat := w.word.symbol % slotSymbols

/-- A word inside a table is placed whatever the slots hold. -/
theorem Inside.place (h : Inside maxBits w) (hsize : slots.size = slotCount maxBits) :
    ∃ slots', place maxBits slots w = some slots' ∧ slots'.size = slotCount maxBits ∧
      ∀ k, slots'[k]? =
        if k = w.word.code ∨ k ∈ padded maxBits w ∧ slots[k]? = some none then some (some (entry w))
        else slots[k]? := by
  have hlt : w.word.code < slots.size := hsize ▸ h.code_lt
  have hfill : fill (entry w) slots w.word.code =
      some (slots.setIfInBounds w.word.code (some (entry w))) := if_pos hlt
  have hpadded : ∀ k ∈ padded maxBits w,
      k < (slots.setIfInBounds w.word.code (some (entry w))).size := fun k hk => by
    rw [Array.size_setIfInBounds, hsize]
    exact h.padded_lt hk
  obtain ⟨slots', hfold, hsize', hget⟩ := foldlM_fillEmpty (entry w) hpadded
  refine ⟨slots', ?_, by rw [hsize', Array.size_setIfInBounds, hsize], fun k => ?_⟩
  · unfold entry at hfill hfold
    simp only [LookupTable.place, Nat.not_lt.mpr h.length_le, if_false, hfill, Option.bind_eq_bind,
      Option.bind_some, hfold]
  · rw [hget, Array.getElem?_setIfInBounds]
    by_cases heq : w.word.code = k
    · simp [← heq, hlt]
    · simp [heq, Ne.symm heq]

/-- A word fits a table of `2 ^ maxBits` slots. -/
structure Fits (maxBits : Nat) (w : SizedWord) : Prop where
  length_le : w.length ≤ maxBits
  code_lt : w.word.code < 2 ^ w.length

theorem Fits.inside (h : Fits maxBits w) : Inside maxBits w where
  length_le := h.length_le
  code_lt := Nat.lt_of_lt_of_le h.code_lt (Nat.pow_le_pow_right (by decide) h.length_le)

/-- The slots show exactly the words that are placed. -/
structure Filled (maxBits : Nat) (placed : List SizedWord) (slots : Array (Option Nat)) : Prop where
  size_eq : slots.size = slotCount maxBits
  shows : ∀ k < slotCount maxBits, ∀ s,
    slots[k]? = some (some s) ↔ ∃ w ∈ placed, w.Owns k ∧ entry w = s

theorem Filled.nil (maxBits : Nat) : Filled maxBits [] (Array.replicate (slotCount maxBits) none) where
  size_eq := Array.size_replicate
  shows k hk s := by simp [hk]

theorem Filled.empty_of_apart {placed : List SizedWord} (h : Filled maxBits placed slots)
    (hw : ∀ w' ∈ placed, w.Apart w') {k : Nat} (hk : k < slotCount maxBits) (ho : w.Owns k) :
    slots[k]? = some none := by
  have hlt : k < slots.size := by rw [h.size_eq]; exact hk
  rw [Array.getElem?_eq_getElem hlt]
  cases hs : slots[k] with
  | none => rfl
  | some s =>
    obtain ⟨w', hmem, ho', -⟩ := (h.shows k hk s).mp (by rw [Array.getElem?_eq_getElem hlt, hs])
    exact absurd ⟨ho, ho'⟩ (hw w' hmem k)

/-- Placing a word whose slots are empty fills these slots and no others. -/
theorem place_ok {placed : List SizedWord} (h : Filled maxBits placed slots)
    (hf : Fits maxBits w) (hw : ∀ w' ∈ placed, w.Apart w') :
    ∃ slots', place maxBits slots w = some slots' ∧ Filled maxBits (placed ++ [w]) slots' := by
  have hmem := mem_padded_iff hf.length_le hf.code_lt
  obtain ⟨slots', hplace, hsize, hget⟩ := hf.inside.place h.size_eq
  refine ⟨slots', hplace, hsize, fun k hk s => ?_⟩
  have hkey : slots'[k]? = if w.Owns k then some (some (entry w)) else slots[k]? := by
    rw [hget]
    by_cases ho : w.Owns k
    · have hnone := h.empty_of_apart hw hk ho
      rw [if_pos ho, if_pos (((hmem k).mpr ⟨hk, ho⟩).imp_right fun hpad => ⟨hpad, hnone⟩)]
    · rw [if_neg ho, if_neg fun hown => ho ((hmem k).mp (hown.imp_right And.left)).2]
  rw [hkey]
  by_cases ho : w.Owns k
  · rw [if_pos ho]
    constructor
    · intro heq; exact ⟨w, by simp, ho, by simpa using heq⟩
    · rintro ⟨w', hm, ho', rfl⟩
      rcases List.mem_append.mp hm with hm | hm
      · exact absurd ⟨ho, ho'⟩ (hw w' hm k)
      · rw [List.mem_singleton.mp hm]
  · rw [if_neg ho, h.shows k hk s]
    constructor
    · rintro ⟨w', hm, h'⟩; exact ⟨w', by simp [hm], h'⟩
    · rintro ⟨w', hm, ho', h'⟩
      rcases List.mem_append.mp hm with hm | hm
      · exact ⟨w', hm, ho', h'⟩
      · rw [List.mem_singleton.mp hm] at ho'; exact absurd ho' ho

/-- Placing words that are pairwise apart succeeds, in any order. -/
theorem foldlM_place {placed todo : List SizedWord} (h : Filled maxBits placed slots)
    (hf : ∀ w ∈ todo, Fits maxBits w) (hp : (placed ++ todo).Pairwise SizedWord.Apart) :
    ∃ slots', todo.foldlM (place maxBits) slots = some slots' ∧
      Filled maxBits (placed ++ todo) slots' := by
  induction todo generalizing placed slots with
  | nil => exact ⟨slots, rfl, by simpa using h⟩
  | cons w todo ih =>
    have hw : ∀ w' ∈ placed, w.Apart w' := fun w' hm =>
      (List.pairwise_append.mp hp).2.2 w' hm w (by simp) |>.symm
    obtain ⟨slots₁, hplace, hfilled⟩ := place_ok h (hf w (by simp)) hw
    obtain ⟨slots', hfold, hfilled'⟩ := ih hfilled (fun w' hm => hf w' (by simp [hm])) (by simpa using hp)
    exact ⟨slots', by simp [hplace, hfold], by simpa using hfilled'⟩

/-! ## The words of a code -/

/-- The code words of `lens`, each with its length. -/
def sizedWords (lens : Lengths) : List SizedWord :=
  lens.words.map fun w => ⟨lens.lengthOf w.symbol, w⟩

variable {lens : Lengths}

theorem mem_sizedWords_iff (hn : lens.length ≤ symbolRange) {w : SizedWord} :
    w ∈ sizedWords lens ↔ 0 < w.length ∧ w.length = lens.lengthOf w.word.symbol ∧
      w.word.code = Bits.toNat (lens.codeBits w.word.symbol) := by
  obtain ⟨length, word⟩ := w
  simp only [sizedWords, List.mem_map, mem_words_iff hn, SizedWord.mk.injEq]
  constructor
  · rintro ⟨w, ⟨hpos, hc⟩, rfl, rfl⟩
    exact ⟨hpos, rfl, hc⟩
  · rintro ⟨hpos, rfl, hc⟩
    exact ⟨word, ⟨hpos, hc⟩, rfl, rfl⟩

/-- A word of a code owns the slots whose bits begin with its code. -/
theorem owns_iff (hn : lens.length ≤ symbolRange) {w : SizedWord} (hw : w ∈ sizedWords lens)
    (k : Nat) : w.Owns k ↔ Bits.ofNat w.length k = lens.codeBits w.word.symbol := by
  obtain ⟨-, hl, hc⟩ := (mem_sizedWords_iff hn).mp hw
  rw [SizedWord.Owns, hc, ← Bits.toNat_ofNat]
  exact ⟨fun h => Bits.eq_of_toNat_eq (by simp [hl]) h, fun h => by rw [h]⟩

/-- Every word of a code fits a table with a slot for each key of the longest length. -/
theorem fits_of_mem (hn : lens.length ≤ symbolRange) {w : SizedWord} (hw : w ∈ sizedWords lens) :
    Fits lens.maxLength w := by
  obtain ⟨-, hl, hc⟩ := (mem_sizedWords_iff hn).mp hw
  refine ⟨hl ▸ lengthOf_le_maxLength lens _, ?_⟩
  rw [hc, hl]
  simpa using Bits.toNat_lt (lens.codeBits w.word.symbol)

/-- No two words of a feasible code own a slot together. -/
theorem pairwise_sizedWords (hf : lens.Feasible) (hn : lens.length ≤ symbolRange) :
    (sizedWords lens).Pairwise SizedWord.Apart := by
  rw [sizedWords, List.pairwise_map]
  refine (pairwise_words hn).imp_of_mem fun {w w'} hw hw' hlt k ho => ?_
  have hmem : ∀ {w}, w ∈ lens.words → (⟨lens.lengthOf w.symbol, w⟩ : SizedWord) ∈ sizedWords lens :=
    fun hw => List.mem_map.mpr ⟨_, hw, rfl⟩
  have hpre := (owns_iff hn (hmem hw) k).mp ho.1
  have hpre' := (owns_iff hn (hmem hw') k).mp ho.2
  have := eq_of_isPrefix hf ((mem_words_iff hn).mp hw).1 ((mem_words_iff hn).mp hw').1
    (hpre ▸ Bits.ofNat_isPrefix (hf.lengthOf_le w.symbol) k)
    (hpre' ▸ Bits.ofNat_isPrefix (hf.lengthOf_le w'.symbol) k)
  omega

/-! ## The order of placement -/

/-- Sorting into buckets moves every word whose key has a bucket, and no other. -/
private theorem flatMap_filter_perm {α : Type} (key : α → Nat) (ws : List α) {ks : List Nat}
    (hk : ks.Nodup) :
    (ks.flatMap fun k => ws.filter fun w => key w == k).Perm (ws.filter fun w => key w ∈ ks) := by
  induction ks with
  | nil => simp
  | cons k ks ih =>
    obtain ⟨hnot, hnd⟩ := List.nodup_cons.mp hk
    rw [List.flatMap_cons]
    refine ((ih hnd).append_left _).trans ?_
    refine .trans (.of_eq ?_) (List.filter_append_perm (fun w => key w == k) _)
    rw [List.filter_filter, List.filter_filter]
    congr 1 <;> refine List.filter_congr fun w _ => ?_
    · by_cases h : key w = k <;> simp [h]
    · by_cases h : key w = k <;> simp [h, hnot]

theorem longestFirst_perm {ws : List SizedWord} (h : ∀ w ∈ ws, w.length ≤ maxCodeBits) :
    (longestFirst ws).Perm ws := by
  refine (flatMap_filter_perm SizedWord.length ws (List.nodup_reverse.mpr List.nodup_range)).trans
    (.of_eq (List.filter_eq_self.mpr fun w hw => ?_))
  have := h w hw
  simp
  omega

/-- All words of a feasible code have a place in the order. -/
theorem longestFirst_sizedWords (hf : lens.Feasible) :
    (longestFirst (sizedWords lens)).Perm (sizedWords lens) :=
  longestFirst_perm fun w hw => by
    obtain ⟨word, -, rfl⟩ := List.mem_map.mp hw
    exact hf.lengthOf_le _

private theorem mapM_eq_some {α β : Type} {f : α → Option β} {g : α → β} {xs : List α}
    (h : ∀ x ∈ xs, f x = some (g x)) : xs.mapM f = some (xs.map g) := by
  induction xs with
  | nil => rfl
  | cons x xs ih =>
    rw [List.mapM_cons, h x (by simp), ih fun y hy => h y (by simp [hy])]
    rfl

/-- Every word of a code has a length, the one of its symbol. A symbol that is out of range becomes a
smaller one, which is never outside the lengths. -/
theorem sized_words (lens : Lengths) : sized lens.toArray lens.words = some (sizedWords lens) := by
  refine mapM_eq_some fun w hw => ?_
  have hlt := lt_length_of_mem_words hw
  rw [List.getElem?_toArray, List.getElem?_eq_getElem hlt, lengthOf_eq_getElem hlt]
  rfl

/-! ## The table -/

/-- A table that decodes the code of `lens`: its lookahead is the longest length, and a key leads
to the symbol whose code it begins with. -/
structure Decodes (t : LookupTable) (lens : Lengths) : Prop where
  maxBits_eq : t.maxBits = lens.maxLength
  lookup_iff : ∀ key s, t.lookup key = some s ↔
    0 < lens.lengthOf s ∧ Bits.ofNat (lens.lengthOf s) key = lens.codeBits s

theorem decodes_of_filled {t : LookupTable} {placed : List SizedWord} (hn : lens.length ≤ slotSymbols)
    (hfill : Filled lens.maxLength placed t.slots) (hp : placed.Perm (sizedWords lens))
    (hm : t.maxBits = lens.maxLength) : t.Decodes lens where
  maxBits_eq := hm
  lookup_iff key s := by
    have hrange : lens.length ≤ symbolRange := Nat.le_trans hn (by decide)
    have hlt : key % slotCount lens.maxLength < slotCount lens.maxLength :=
      Nat.mod_lt _ (Nat.two_pow_pos _)
    rw [lookup, hm, Option.join_eq_some_iff, hfill.shows _ hlt]
    constructor
    · rintro ⟨w, hmem, ho, rfl⟩
      have hmem := hp.mem_iff.mp hmem
      obtain ⟨hpos, hl, -⟩ := (mem_sizedWords_iff hrange).mp hmem
      have hs := lt_length_of_pos (hl ▸ hpos)
      rw [owns_iff hrange hmem, hl, slotCount_eq, Bits.ofNat_mod_of_le
        (lengthOf_le_maxLength lens _)] at ho
      rw [entry, Nat.mod_eq_of_lt (by omega)]
      exact ⟨hl ▸ hpos, ho⟩
    · rintro ⟨hpos, hbits⟩
      have hs := lt_length_of_pos hpos
      have hmem : (⟨lens.lengthOf s, ⟨Bits.toNat (lens.codeBits s), s⟩⟩ : SizedWord) ∈
          sizedWords lens := (mem_sizedWords_iff hrange).mpr ⟨hpos, rfl, rfl⟩
      refine ⟨_, hp.mem_iff.mpr hmem, ?_, Nat.mod_eq_of_lt (Nat.lt_of_lt_of_le hs hn)⟩
      rw [owns_iff hrange hmem, slotCount_eq, Bits.ofNat_mod_of_le (lengthOf_le_maxLength lens _)]
      exact hbits

/-- A build stores the slots that placing the words results in. -/
theorem build_of_placed {t : LookupTable} {slots : Array (Option Nat)} (book : CodeBook)
    (hf : lens.Feasible) (hc : 2 ^ lens.maxLength ≤ t.capacity)
    (hplace : placeAll lens.maxLength (longestFirst (sizedWords lens)) = some slots) :
    build lens (t, book) = .ok lens.maxLength
      ({ t with maxBits := lens.maxLength, slots },
        (longestFirst (sizedWords lens)).map SizedWord.word) := by
  rw [build, run_bind_ok (focus_snd_ok (CodeBook.assign_ok hf book)), run_bind_ok run_get]
  have hroom : ¬ t.capacity < slotCount lens.maxLength := Nat.not_lt.mpr hc
  simp only [hroom, if_false, sized_words lens, hplace]
  rfl

/-- A table is built for every feasible set of lengths that fits it. -/
theorem build_ok {t : LookupTable} (book : CodeBook) (hf : lens.Feasible)
    (hn : lens.length ≤ slotSymbols) (hc : 2 ^ lens.maxLength ≤ t.capacity) :
    ∃ t' book', build lens (t, book) = .ok lens.maxLength (t', book') ∧ t'.Decodes lens ∧
      t'.capacity = t.capacity := by
  have hrange : lens.length ≤ symbolRange := Nat.le_trans hn (by decide)
  have hperm := longestFirst_sizedWords hf
  obtain ⟨slots, hplace, hfill⟩ := foldlM_place (Filled.nil lens.maxLength)
    (fun w (hw : w ∈ longestFirst (sizedWords lens)) => fits_of_mem hrange (hperm.mem_iff.mp hw))
    (by
      rw [List.nil_append]
      exact (hperm.pairwise_iff SizedWord.Apart.symm).mpr (pairwise_sizedWords hf hrange))
  exact ⟨_, _, build_of_placed book hf hc hplace,
    decodes_of_filled hn hfill (by simpa using hperm) rfl, rfl⟩

/-- Lengths that are rejected touch nothing. -/
theorem build_rejected {t : LookupTable} {book : CodeBook} {e : Error}
    (hassign : CodeBook.assign lens book = .error e book) :
    build lens (t, book) = .error e (t, book) := by
  rw [build, run_bind_error (focus_snd_error hassign)]

/-- Codes for which there are too few slots leave their words. -/
theorem build_tooLong {t : LookupTable} {book words : CodeBook} {n : Nat}
    (hassign : CodeBook.assign lens book = .ok n words) (hslots : t.capacity < slotCount n) :
    build lens (t, book) = .error (.invalid (.codeLengthTooLong n)) (t, words) := by
  rw [build, run_bind_ok (focus_snd_ok hassign), run_bind_ok run_get]
  simp only [hslots, if_true]
  rfl

/-- The steps of a build that succeeds. -/
theorem build_inv {t : LookupTable} {book : CodeBook} {n : Nat} {s : LookupTable × CodeBook}
    (h : build lens (t, book) = .ok n s) :
    ∃ book' words slots, CodeBook.assign lens book = .ok n book' ∧ slotCount n ≤ t.capacity ∧
      sized lens.toArray book' = some words ∧ placeAll n (longestFirst words) = some slots ∧
      s = ({ t with maxBits := n, slots }, (longestFirst words).map SizedWord.word) := by
  obtain ⟨m, s', hfocus, h⟩ := ok_of_bind h
  obtain ⟨book', hassign, rfl⟩ := ok_of_focus hfocus
  rw [run_bind_ok run_get] at h
  dsimp only at h
  by_cases hcap : t.capacity < slotCount m
  · rw [if_pos hcap] at h
    cases h
  · rw [if_neg hcap] at h
    cases hwords : sized lens.toArray book' with
    | none => rw [hwords] at h; cases h
    | some words =>
      rw [hwords] at h
      dsimp only at h
      cases hslots : placeAll m (longestFirst words) with
      | none => rw [hslots] at h; cases h
      | some slots =>
        rw [hslots] at h
        cases h
        exact ⟨book', words, slots, hassign, Nat.le_of_not_lt hcap, hwords, hslots, rfl⟩

theorem feasible_of_build {t : LookupTable} {book : CodeBook} {n : Nat}
    {s : LookupTable × CodeBook} (h : build lens (t, book) = .ok n s) :
    lens.Feasible ∧ 2 ^ lens.maxLength ≤ t.capacity := by
  obtain ⟨_, _, _, hassign, hcap, -⟩ := build_inv h
  obtain ⟨hf, rfl, -⟩ := CodeBook.assign_inv hassign
  exact ⟨hf, hcap⟩

/-- A build that succeeds gives a table for its lengths. -/
theorem decodes_of_build {t t' : LookupTable} {book book' : CodeBook} {n : Nat}
    (hn : lens.length ≤ slotSymbols) (h : build lens (t, book) = .ok n (t', book')) :
    lens.Feasible ∧ n = lens.maxLength ∧ t'.Decodes lens := by
  obtain ⟨hf, hcap⟩ := feasible_of_build h
  obtain ⟨t₁, book₁, hbuild, hd, -⟩ := build_ok book hf hn hcap
  rw [hbuild] at h
  cases h
  exact ⟨hf, rfl, hd⟩

end LookupTable
end DeflateHeader
