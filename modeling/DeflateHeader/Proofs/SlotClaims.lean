import DeflateHeader.Proofs.SlotStorage

/-!
# Every slot is claimed once

A word that is placed claims slots one after the other: its own one, which is written in any case, and
then the padded ones, each of which is written only while it is empty. With `Claim`s as the steps, placing
words is a run over all their claims (`foldlM_place_eq_take`).

A claim on a free slot writes that slot and leaves the others alone (`TakesFree`). So as long as no slot is
claimed twice, every claim finds its slot as it was before the first one (`ClaimedOnce.of_free`), and what
results does not depend on the order of the claims (`foldl_write_perm`). The words of an accepted code
claim no slot twice, because no two of them own a slot together (`LookupTable.nodup_claims`). Hence a
table may be filled with the words in any order, and so may its storage
(`LookupTable.slots_claimed_once`).
-/

namespace DeflateHeader

open Lengths

/-- A slot that a word claims when it is placed, as its own one or as a padded one. -/
structure Claim where
  word : SizedWord
  slot : Nat
  isOwn : Bool
  deriving DecidableEq, Repr

/-- The claims of a word, in the order in which they are made. -/
def SizedWord.claims (maxBits : Nat) (w : SizedWord) : List Claim :=
  ⟨w, w.word.code, true⟩ :: (LookupTable.padded maxBits w).map fun k => ⟨w, k, false⟩

/-- A claim on a slot of a table. -/
def LookupTable.take (slots : Array (Option Nat)) (c : Claim) : Option (Array (Option Nat)) :=
  if c.isOwn then fill (entry c.word) slots c.slot else fillEmpty (entry c.word) slots c.slot

/-- A claim on a slot in storage. -/
def SlotStorage.take (words : Array UInt16) (c : Claim) : Option (Array UInt16) :=
  if c.isOwn then fill c.word.word.symbol words c.slot
  else fillEmpty c.word.word.symbol words c.slot

/-! ## Runs over claims -/

section Run

variable {α : Type} {take : Array α → Claim → Option (Array α)} {Free : α → Prop}
  {entry : SizedWord → α} {slots : Array α} {claims : List Claim}

/-- A run over claims each of which is the only one on its slot and finds the slot free when its turn
comes. -/
structure ClaimedOnce (take : Array α → Claim → Option (Array α)) (Free : α → Prop)
    (claims : List Claim) (slots slots' : Array α) : Prop where
  nodup : (claims.map Claim.slot).Nodup
  free : ∀ before c after, claims = before ++ c :: after →
    ∃ between cell, before.foldlM take slots = some between ∧ between[c.slot]? = some cell ∧ Free cell
  run_eq : claims.foldlM take slots = some slots'

/-- The slots with the entry of the claiming word in the one that is claimed. -/
def Claim.write (entry : SizedWord → α) (slots : Array α) (c : Claim) : Array α :=
  slots.setIfInBounds c.slot (entry c.word)

/-- A claim on a free slot writes it and nothing else. -/
def TakesFree (take : Array α → Claim → Option (Array α)) (Free : α → Prop)
    (entry : SizedWord → α) : Prop :=
  ∀ slots c cell, slots[c.slot]? = some cell → Free cell → take slots c = some (c.write entry slots)

theorem getElem?_write_of_ne {c : Claim} {k : Nat} (h : c.slot ≠ k) :
    (c.write entry slots)[k]? = slots[k]? :=
  Array.getElem?_setIfInBounds_ne h

/-- A slot that is not claimed stays as it is. -/
theorem getElem?_foldl_write {k : Nat} (h : ∀ c ∈ claims, c.slot ≠ k) :
    (claims.foldl (Claim.write entry) slots)[k]? = slots[k]? := by
  induction claims generalizing slots with
  | nil => rfl
  | cons c claims ih =>
    rw [List.foldl_cons, ih fun c' hc' => h c' (by simp [hc']), getElem?_write_of_ne (h c (by simp))]

/-- Claims on different slots, all of them free, write these slots. -/
theorem foldlM_take (htake : TakesFree take Free entry) (hnodup : (claims.map Claim.slot).Nodup)
    (hfree : ∀ c ∈ claims, ∃ cell, slots[c.slot]? = some cell ∧ Free cell) :
    claims.foldlM take slots = some (claims.foldl (Claim.write entry) slots) := by
  induction claims generalizing slots with
  | nil => rfl
  | cons c claims ih =>
    obtain ⟨hnot, hnodup⟩ := List.nodup_cons.mp hnodup
    obtain ⟨cell, hcell, hc⟩ := hfree c (by simp)
    rw [List.foldlM_cons, htake slots c cell hcell hc]
    refine ih hnodup fun c' hc' => ?_
    have hne : c.slot ≠ c'.slot := fun heq => hnot (heq ▸ List.mem_map_of_mem hc')
    rw [getElem?_write_of_ne hne]
    exact hfree c' (by simp [hc'])

/-- Claims on different slots, all of them free in the beginning. -/
theorem ClaimedOnce.of_free (htake : TakesFree take Free entry) (hnodup : (claims.map Claim.slot).Nodup)
    (hfree : ∀ c ∈ claims, ∃ cell, slots[c.slot]? = some cell ∧ Free cell) :
    ClaimedOnce take Free claims slots (claims.foldl (Claim.write entry) slots) where
  nodup := hnodup
  run_eq := foldlM_take htake hnodup hfree
  free before c after hsplit := by
    subst hsplit
    rw [List.map_append, List.nodup_append] at hnodup
    obtain ⟨hbefore, -, hne⟩ := hnodup
    obtain ⟨cell, hcell, hc⟩ := hfree c (by simp)
    refine ⟨_, cell, foldlM_take htake hbefore fun c' hc' => hfree c' (by simp [hc']), ?_, hc⟩
    -- Nothing before has claimed the slot.
    rw [getElem?_foldl_write fun c' hc' => hne _ (List.mem_map_of_mem hc') _ (by simp)]
    exact hcell

/-- On different slots, the order of the claims does not matter. -/
theorem foldl_write_perm {claims' : List Claim} (hnodup : (claims.map Claim.slot).Nodup)
    (hperm : claims.Perm claims') (slots : Array α) :
    claims.foldl (Claim.write entry) slots = claims'.foldl (Claim.write entry) slots := by
  refine hperm.foldl_eq' (fun c hc c' hc' slots => ?_) slots
  by_cases heq : c = c'
  · rw [heq]
  · exact Array.setIfInBounds_comm _ _ fun hslot => heq (List.inj_on_of_nodup_map hnodup hc hc' hslot)

end Run

namespace LookupTable

variable {maxBits : Nat} {w : SizedWord} {ws : List SizedWord}

/-! ## The claims of the words of a code -/

theorem map_slot_claims (maxBits : Nat) (w : SizedWord) :
    (w.claims maxBits).map Claim.slot = w.word.code :: padded maxBits w := by
  simp [SizedWord.claims, Function.comp_def]

theorem mem_map_slot_claims_iff (hf : Fits maxBits w) (k : Nat) :
    k ∈ (w.claims maxBits).map Claim.slot ↔ k < slotCount maxBits ∧ w.Owns k := by
  rw [map_slot_claims, List.mem_cons, mem_padded_iff hf.length_le hf.code_lt]

theorem nodup_padded (hf : Fits maxBits w) : (w.word.code :: padded maxBits w).Nodup := by
  have hpos := Nat.two_pow_pos w.length
  rw [padded_eq hf.code_lt, List.nodup_cons]
  constructor
  · intro hmem
    obtain ⟨pad, hpad, heq⟩ := List.mem_map.mp hmem
    have : 0 < pad * 2 ^ w.length := Nat.mul_pos (List.mem_range'_1.mp hpad).1 hpos
    omega
  · refine List.Nodup.map (fun pad pad' heq => ?_) List.nodup_range'
    exact Nat.eq_of_mul_eq_mul_right hpos (Nat.add_right_cancel heq)

/-- Words that own no slot together claim every slot at most once. -/
theorem nodup_claims (hfits : ∀ w ∈ ws, Fits maxBits w) (hp : ws.Pairwise SizedWord.Apart) :
    ((ws.flatMap (SizedWord.claims maxBits)).map Claim.slot).Nodup := by
  rw [List.map_flatMap, List.nodup_flatMap]
  refine ⟨fun w hw => map_slot_claims maxBits w ▸ nodup_padded (hfits w hw),
    hp.imp_of_mem fun {w w'} hw hw' hapart k hk hk' => hapart k ⟨?_, ?_⟩⟩
  · exact ((mem_map_slot_claims_iff (hfits w hw) k).mp hk).2
  · exact ((mem_map_slot_claims_iff (hfits w' hw') k).mp hk').2

theorem slot_lt_of_mem_claims (hfits : ∀ w ∈ ws, Fits maxBits w) {c : Claim}
    (hc : c ∈ ws.flatMap (SizedWord.claims maxBits)) : c.slot < slotCount maxBits := by
  obtain ⟨w, hw, hc⟩ := List.mem_flatMap.mp hc
  exact ((mem_map_slot_claims_iff (hfits w hw) c.slot).mp (List.mem_map_of_mem hc)).1

end LookupTable

/-! ## Placing words is a run over their claims -/

section Place

variable {maxBits : Nat} {w : SizedWord}

theorem LookupTable.place_eq_take (h : w.length ≤ maxBits) (slots : Array (Option Nat)) :
    place maxBits slots w = (w.claims maxBits).foldlM take slots := by
  rw [place, SizedWord.claims, List.foldlM_cons, if_neg (Nat.not_lt.mpr h)]
  simp only [List.foldlM_map]
  rfl

theorem SlotStorage.place_eq_take (h : w.length ≤ maxBits) (words : Array UInt16) :
    place maxBits words w = (w.claims maxBits).foldlM take words := by
  rw [place, SizedWord.claims, List.foldlM_cons, if_neg (Nat.not_lt.mpr h)]
  simp only [List.foldlM_map]
  rfl

theorem LookupTable.takesFree : TakesFree take (· = none) fun w => some (entry w) := by
  intro slots c cell hcell hfree
  obtain rfl : cell = none := hfree
  rw [take]
  split
  · exact if_pos (Array.getElem?_eq_some_iff.mp hcell).1
  · exact fillEmpty_of_none hcell

theorem SlotStorage.takesFree :
    TakesFree take (fun slot => slot &&& mark = 0) fun w => entry w.word.symbol := by
  intro words c word hword hfree
  have hlt := (Array.getElem?_eq_some_iff.mp hword).1
  rw [take, fillEmpty, hword]
  simp only [hfree, if_true, ite_self]
  exact if_pos hlt

variable {α : Type} {place : Array α → SizedWord → Option (Array α)}
  {take : Array α → Claim → Option (Array α)} {Free : α → Prop} {entry : SizedWord → α}
  {slots : Array α} {ws : List SizedWord}

/-- Placing words is a run over their claims if placing each of them is. -/
theorem foldlM_place_eq_take
    (hplace : ∀ w ∈ ws, ∀ slots, place slots w = (w.claims maxBits).foldlM take slots)
    (slots : Array α) :
    ws.foldlM place slots = (ws.flatMap (SizedWord.claims maxBits)).foldlM take slots := by
  induction ws generalizing slots with
  | nil => rfl
  | cons w ws ih =>
    rw [List.foldlM_cons, hplace w (by simp), List.flatMap_cons, List.foldlM_append]
    exact bind_congr fun slots' => ih (fun w' hw' => hplace w' (by simp [hw'])) slots'

/-- Words that own no slot together are placed in free slots in any order, with the same result. -/
theorem place_in_any_order (htake : TakesFree take Free entry)
    (hplace : ∀ {w : SizedWord}, w.length ≤ maxBits →
      ∀ slots, place slots w = (w.claims maxBits).foldlM take slots)
    (hfits : ∀ w ∈ ws, LookupTable.Fits maxBits w) (hp : ws.Pairwise SizedWord.Apart)
    (hfree : ∀ k < slotCount maxBits, ∃ cell, slots[k]? = some cell ∧ Free cell) :
    ∃ slots', ∀ order : List SizedWord, order.Perm ws → order.foldlM place slots = some slots' ∧
      ClaimedOnce take Free (order.flatMap (SizedWord.claims maxBits)) slots slots' := by
  refine ⟨(ws.flatMap (SizedWord.claims maxBits)).foldl (Claim.write entry) slots, fun order hperm => ?_⟩
  have hfits' : ∀ w ∈ order, LookupTable.Fits maxBits w := fun w hw => hfits w (hperm.mem_iff.mp hw)
  have hnodup := LookupTable.nodup_claims hfits' ((hperm.pairwise_iff SizedWord.Apart.symm).mpr hp)
  have honce := ClaimedOnce.of_free htake hnodup fun c hc =>
    hfree _ (LookupTable.slot_lt_of_mem_claims hfits' hc)
  rw [foldl_write_perm hnodup (hperm.flatMap_right _)] at honce
  refine ⟨?_, honce⟩
  rw [foldlM_place_eq_take fun w hw => hplace (hfits' w hw).length_le]
  exact honce.run_eq

end Place

namespace LookupTable

/-- For up to `2 ^ 15` lengths that are accepted, a table with room for the code is built by placing the
words of one list, longest first, whatever the table and its storage held before. No slot is claimed
twice, so none is written by two words. A word's own slot, which is written in any case, is free when the
word comes to it, and so is each padded slot, which is looked at before. In any other order the same words
leave the same slots. -/
theorem slots_claimed_once {lens : Lengths} {book words : CodeBook} {n : Nat}
    (hn : lens.length ≤ slotSymbols) (haccept : CodeBook.assign lens book = .ok n words) :
    ∃ ws, sized lens.toArray words = some ws ∧ (longestFirst ws).Perm ws ∧
      (∀ (t : LookupTable) (earlier : CodeBook), slotCount n ≤ t.capacity →
        ∃ t', build lens (t, earlier) = .ok n (t', (longestFirst ws).map SizedWord.word) ∧
          ∀ order : List SizedWord, order.Perm ws → placeAll n order = some t'.slots ∧
            ClaimedOnce take (· = none) (order.flatMap (SizedWord.claims n))
              (Array.replicate (slotCount n) none) t'.slots) ∧
      ∀ (store : SlotStorage) (earlier : CodeBook), slotCount n ≤ store.slots.size →
        ∃ store', SlotStorage.build lens (store, earlier) =
            .ok n (store', (longestFirst ws).map SizedWord.word) ∧
          ∀ order : List SizedWord, order.Perm ws →
            order.foldlM (SlotStorage.place n) (SlotStorage.clear (slotCount n) store.slots) =
              some store'.slots ∧
            ClaimedOnce SlotStorage.take (fun slot => slot &&& SlotStorage.mark = 0)
              (order.flatMap (SizedWord.claims n))
              (SlotStorage.clear (slotCount n) store.slots) store'.slots := by
  obtain ⟨hf, rfl, rfl⟩ := CodeBook.assign_inv haccept
  have hrange : lens.length ≤ symbolRange := Nat.le_trans hn (by decide)
  have hfits : ∀ w ∈ sizedWords lens, Fits lens.maxLength w := fun w => fits_of_mem hrange
  have hp := pairwise_sizedWords hf hrange
  have hperm := longestFirst_sizedWords hf
  refine ⟨sizedWords lens, sized_words lens, hperm, fun t earlier hcap => ?_,
    fun store earlier hsize => ?_⟩
  · obtain ⟨slots, hslots⟩ := place_in_any_order LookupTable.takesFree LookupTable.place_eq_take
      hfits hp fun k hk => ⟨none, by rw [Array.getElem?_replicate, if_pos hk], rfl⟩
    exact ⟨_, build_of_placed earlier hf hcap (hslots _ hperm).1, hslots⟩
  · obtain ⟨slots, hslots⟩ := place_in_any_order SlotStorage.takesFree SlotStorage.place_eq_take
      hfits hp fun k hk => ⟨0, SlotStorage.getElem?_clear hsize hk, rfl⟩
    exact ⟨⟨slots, _⟩, SlotStorage.build_of_placed (CodeBook.assign_ok hf earlier) hsize
      (sized_words lens) (hslots _ hperm).1, hslots⟩

/-- The complete code of lengths 1, 3, 2 and 3 in storage that is full of marked words. From the shortest
word to the longest, against the order of a build, no slot is claimed twice either, and the same slots
result. -/
theorem slots_claimed_once_shortestFirst :
    let storage := Array.replicate 16 0xFFFF
    let shortestFirst : List SizedWord := [⟨1, ⟨0, 0⟩⟩, ⟨2, ⟨1, 2⟩⟩, ⟨3, ⟨3, 1⟩⟩, ⟨3, ⟨7, 3⟩⟩]
    ∃ store',
      SlotStorage.build [1, 3, 2, 3] (⟨storage, 4⟩, [⟨7, 9⟩]) =
        .ok 3 (store', [⟨3, 1⟩, ⟨7, 3⟩, ⟨1, 2⟩, ⟨0, 0⟩]) ∧
      shortestFirst.foldlM (SlotStorage.place 3) (SlotStorage.clear 8 storage) = some store'.slots ∧
      ClaimedOnce SlotStorage.take (fun slot => slot &&& SlotStorage.mark = 0)
        (shortestFirst.flatMap (SizedWord.claims 3)) (SlotStorage.clear 8 storage) store'.slots := by
  intro storage shortestFirst
  have hf : Feasible [1, 3, 2, 3] := by decide
  have hwords : Lengths.words [1, 3, 2, 3] = [⟨0, 0⟩, ⟨3, 1⟩, ⟨1, 2⟩, ⟨7, 3⟩] := by decide +kernel
  have haccept := CodeBook.assign_ok hf []
  rw [hwords] at haccept
  obtain ⟨ws, hsized, -, -, hstore⟩ := slots_claimed_once (by decide) haccept
  obtain rfl : ws = [⟨1, ⟨0, 0⟩⟩, ⟨3, ⟨3, 1⟩⟩, ⟨2, ⟨1, 2⟩⟩, ⟨3, ⟨7, 3⟩⟩] :=
    Option.some.inj (hsized.symm.trans (by rfl))
  obtain ⟨store', hbuild, horder⟩ := hstore ⟨storage, 4⟩ [⟨7, 9⟩] (by decide)
  exact ⟨store', hbuild, horder shortestFirst (by decide)⟩

end LookupTable
end DeflateHeader
