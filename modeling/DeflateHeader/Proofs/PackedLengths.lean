import DeflateHeader.Codec.Encode
import DeflateHeader.Proofs.CanonicalCode
import Mathlib.Data.List.GetD

/-!
# The lengths of the code-length alphabet

The lengths of the code-length alphabet come in the order `codeLengthOrder` and as many as the
header says. `Lengths.ofSent` gives them to their symbols; `setLengths` does the same one after the
other, as the codec does (`setLengths_sent`).

In a puff buffer two lengths stand in one byte. `pack` and the half bytes of `Encoding.nibbles` are
inverse to each other (`nibbles_pack`, `pack_nibbles`).
-/

namespace DeflateHeader

/-! ## Half bytes -/

/-- Half bytes, two to a byte, the first one high; zero comes after an odd number. -/
def pack : List UInt8 → List UInt8
  | [] => []
  | [a] => [a <<< 4]
  | a :: b :: rest => (a <<< 4 ||| b) :: pack rest

@[simp] theorem length_pack (vs : List UInt8) : (pack vs).length = (vs.length + 1) / 2 := by
  induction vs using pack.induct with
  | case1 => rfl
  | case2 a => simp [pack]
  | case3 a b rest ih => rw [pack, List.length_cons, ih, List.length_cons, List.length_cons]; omega

section Nibbles

variable {a b : UInt8}

theorem toNat_shiftRight_four (b : UInt8) : (b >>> 4).toNat = b.toNat / 16 := by
  rw [UInt8.toNat_shiftRight]
  exact Nat.shiftRight_eq_div_pow b.toNat 4

theorem toNat_and_fifteen (b : UInt8) : (b &&& 0x0F).toNat = b.toNat % 16 := by
  rw [UInt8.toNat_and]
  exact Nat.and_two_pow_sub_one_eq_mod b.toNat 4

theorem toNat_shiftLeft_or (ha : a.toNat < 16) (hb : b.toNat < 16) :
    (a <<< 4 ||| b).toNat = 16 * a.toNat + b.toNat := by
  have hs : (a <<< 4).toNat = a.toNat <<< 4 := by
    rw [UInt8.toNat_shiftLeft]
    exact Nat.mod_eq_of_lt (by rw [Nat.shiftLeft_eq]; simp; omega)
  rw [UInt8.toNat_or, hs, ← Nat.shiftLeft_add_eq_or_of_lt hb, Nat.shiftLeft_eq]
  omega

theorem high_shiftLeft_or (ha : a.toNat < 16) (hb : b.toNat < 16) : (a <<< 4 ||| b) >>> 4 = a := by
  apply UInt8.toNat_inj.mp
  rw [toNat_shiftRight_four, toNat_shiftLeft_or ha hb]
  omega

theorem low_shiftLeft_or (ha : a.toNat < 16) (hb : b.toNat < 16) : (a <<< 4 ||| b) &&& 0x0F = b := by
  apply UInt8.toNat_inj.mp
  rw [toNat_and_fifteen, toNat_shiftLeft_or ha hb]
  omega

/-- A byte is made of its two half bytes. -/
theorem shiftLeft_or_nibbles (b : UInt8) : (b >>> 4) <<< 4 ||| (b &&& 0x0F) = b := by
  have hlt := b.toNat_lt
  apply UInt8.toNat_inj.mp
  rw [toNat_shiftLeft_or (by rw [toNat_shiftRight_four]; omega) (by rw [toNat_and_fifteen]; omega),
    toNat_shiftRight_four, toNat_and_fifteen]
  omega

end Nibbles

open Encoding (nibbles)

@[simp] theorem nibbles_nil : nibbles [] = [] := rfl

@[simp] theorem nibbles_cons (b : UInt8) (bs : List UInt8) :
    nibbles (b :: bs) = b >>> 4 :: (b &&& 0x0F) :: nibbles bs := rfl

@[simp] theorem length_nibbles (bs : List UInt8) : (nibbles bs).length = 2 * bs.length := by
  induction bs with
  | nil => rfl
  | cons b bs ih => rw [nibbles_cons, List.length_cons, List.length_cons, ih, List.length_cons]; omega

/-- The half bytes of packed values are these values. -/
theorem nibbles_pack {vs : List UInt8} (h : ∀ v ∈ vs, v.toNat < 16) :
    (nibbles (pack vs)).take vs.length = vs := by
  induction vs using pack.induct with
  | case1 => rfl
  | case2 a =>
    have hhigh := high_shiftLeft_or (b := 0) (h a (by simp)) (by decide)
    rw [UInt8.or_zero] at hhigh
    rw [pack, nibbles_cons, hhigh]
    rfl
  | case3 a b rest ih =>
    have ha := h a (by simp)
    have hb := h b (by simp)
    rw [pack, nibbles_cons, high_shiftLeft_or ha hb, low_shiftLeft_or ha hb, List.length_cons,
      List.length_cons, List.take_succ_cons, List.take_succ_cons,
      ih fun v hv => h v (by simp [hv])]

/-- Packing adds no half byte that is larger than the values. -/
theorem nibble_pack_le {vs : List UInt8} {n : Nat} (hn : n < 16) (h : ∀ v ∈ vs, v.toNat ≤ n) :
    ∀ nibble ∈ nibbles (pack vs), nibble.toNat ≤ n := by
  induction vs using pack.induct with
  | case1 => simp [pack]
  | case2 a =>
    have ha : a.toNat < 16 := Nat.lt_of_le_of_lt (h a (by simp)) hn
    have hhigh := high_shiftLeft_or (b := 0) ha (by decide)
    have hlow := low_shiftLeft_or (b := 0) ha (by decide)
    rw [UInt8.or_zero] at hhigh hlow
    rw [pack, nibbles_cons, hhigh, hlow]
    simpa using h a (by simp)
  | case3 a b rest ih =>
    have ha := h a (by simp)
    have hb := h b (by simp)
    rw [pack, nibbles_cons, high_shiftLeft_or (Nat.lt_of_le_of_lt ha hn) (Nat.lt_of_le_of_lt hb hn),
      low_shiftLeft_or (Nat.lt_of_le_of_lt ha hn) (Nat.lt_of_le_of_lt hb hn)]
    intro nibble hm
    rcases List.mem_cons.mp hm with rfl | hm
    · exact ha
    rcases List.mem_cons.mp hm with rfl | hm
    · exact hb
    exact ih (fun v hv => h v (by simp [hv])) nibble hm

/-- After an odd number of values the last half byte is zero. -/
theorem getLast?_pack {vs : List UInt8} (h : vs.length % 2 = 1) :
    ∃ last, (pack vs).getLast? = some last ∧ last &&& 0x0F = 0 := by
  induction vs using pack.induct with
  | case1 => simp at h
  | case2 a =>
    refine ⟨a <<< 4, rfl, ?_⟩
    apply UInt8.toNat_inj.mp
    rw [toNat_and_fifteen, UInt8.toNat_shiftLeft, UInt8.toNat_ofNat, Nat.shiftLeft_eq]
    simp
  | case3 a b rest ih =>
    obtain ⟨last, hlast, hz⟩ := ih (by simp only [List.length_cons] at h; omega)
    exact ⟨last, by rw [pack, List.getLast?_cons, hlast]; rfl, hz⟩

/-- Packing the half bytes of a byte string gives it back, if the half byte that is left out is
zero. -/
theorem pack_nibbles {bytes : List UInt8} {n : Nat} (hn : bytes.length = (n + 1) / 2)
    (hpad : n % 2 = 1 → ∀ last, bytes.getLast? = some last → last &&& 0x0F = 0) :
    pack ((nibbles bytes).take n) = bytes := by
  induction bytes generalizing n with
  | nil => simp [pack]
  | cons b bytes ih =>
    rw [List.length_cons] at hn
    rw [nibbles_cons]
    rcases Nat.lt_or_ge n 2 with h1 | h2
    · obtain rfl : n = 1 := by omega
      obtain rfl : bytes = [] := List.length_eq_zero_iff.mp (by omega)
      have := shiftLeft_or_nibbles b
      rw [hpad rfl b rfl, UInt8.or_zero] at this
      simp only [List.take_succ_cons, List.take_zero, pack, this]
    · obtain ⟨m, rfl⟩ := Nat.exists_eq_add_of_le' h2
      rw [List.take_succ_cons, List.take_succ_cons, pack, shiftLeft_or_nibbles,
        ih (by omega) fun hm last hlast => ?_]
      refine hpad (by omega) last ?_
      rw [List.getLast?_cons, hlast]
      rfl

/-! ## Lengths by symbol -/

/-- The lengths of the code-length alphabet, of which the first ones in `codeLengthOrder` were sent
and the others are 0. -/
def Lengths.ofSent (sent : List UInt8) : Lengths :=
  (List.range codeLengthCount).map fun symbol => sent.getD (codeLengthOrder.idxOf symbol) 0

/-- Sets the lengths of some symbols, one after the other. -/
def setLengths (lens : Lengths) (pairs : List (Nat × UInt8)) : Lengths :=
  pairs.foldl (fun lens pair => lens.set pair.1 pair.2) lens

@[simp] theorem setLengths_nil (lens : Lengths) : setLengths lens [] = lens := rfl

@[simp] theorem setLengths_cons (lens : Lengths) (symbol : Nat) (len : UInt8)
    (pairs : List (Nat × UInt8)) :
    setLengths lens ((symbol, len) :: pairs) = setLengths (lens.set symbol len) pairs := rfl

@[simp] theorem length_setLengths (lens : Lengths) (pairs : List (Nat × UInt8)) :
    (setLengths lens pairs).length = lens.length := by
  induction pairs generalizing lens with
  | nil => rfl
  | cons pair pairs ih => obtain ⟨symbol, len⟩ := pair; rw [setLengths_cons, ih, List.length_set]

variable {sent : List UInt8} {lens : Lengths} {s : Nat}

theorem setLengths_le {n : Nat} {pairs : List (Nat × UInt8)} (hl : ∀ len ∈ lens, len.toNat ≤ n)
    (hp : ∀ pair ∈ pairs, pair.2.toNat ≤ n) : ∀ len ∈ setLengths lens pairs, len.toNat ≤ n := by
  induction pairs generalizing lens with
  | nil => exact hl
  | cons pair pairs ih =>
    refine ih (fun len hlen => ?_) fun pair' hmem => hp pair' (by simp [hmem])
    rcases List.mem_or_eq_of_mem_set hlen with hmem | rfl
    · exact hl len hmem
    · exact hp pair (by simp)

theorem nodup_codeLengthOrder : codeLengthOrder.Nodup := by decide

theorem lt_of_mem_codeLengthOrder (h : s ∈ codeLengthOrder) : s < codeLengthCount := by
  revert s; decide

@[simp] theorem length_codeLengthOrder : codeLengthOrder.length = codeLengthCount := rfl

/-- Different symbols keep the lengths that they are given. -/
theorem getElem?_setLengths {symbols : List Nat} {vs : List UInt8} (hn : symbols.Nodup)
    (hle : vs.length ≤ symbols.length) (hs : s < lens.length) :
    (setLengths lens (symbols.zip vs))[s]? = some (vs.getD (symbols.idxOf s) lens[s]) := by
  induction symbols generalizing vs lens with
  | nil => simp_all
  | cons symbol symbols ih =>
    cases vs with
    | nil => simp [hs]
    | cons v vs =>
      obtain ⟨hnot, hn⟩ := List.nodup_cons.mp hn
      rw [List.length_cons, List.length_cons] at hle
      rw [List.zip_cons_cons, setLengths_cons, ih hn (by omega) (by simpa using hs)]
      by_cases heq : symbol = s
      · subst heq
        rw [List.idxOf_of_notMem hnot, List.idxOf_cons_self, List.getElem_set_self]
        simp [List.getD, List.getElem?_eq_none (show vs.length ≤ symbols.length by omega)]
      · rw [List.idxOf_cons_ne _ heq, List.getElem_set_ne heq]
        rfl

@[simp] theorem length_ofSent (sent : List UInt8) :
    (Lengths.ofSent sent).length = codeLengthCount := by
  simp [Lengths.ofSent]

theorem getElem?_ofSent (h : s < codeLengthCount) :
    (Lengths.ofSent sent)[s]? = some (sent.getD (codeLengthOrder.idxOf s) 0) := by
  simp [Lengths.ofSent, h]

/-- Setting the lengths as they are sent, on lengths that are all zero. -/
theorem setLengths_sent (h : sent.length ≤ codeLengthCount) :
    setLengths (List.replicate codeLengthCount 0) ((codeLengthOrder.take sent.length).zip sent) =
      Lengths.ofSent sent := by
  have hlen : (codeLengthOrder.take sent.length).length = sent.length := by simpa using h
  have hzip : codeLengthOrder.zip sent = (codeLengthOrder.take sent.length).zip sent := calc
    codeLengthOrder.zip sent
      = (codeLengthOrder.take sent.length ++ codeLengthOrder.drop sent.length).zip (sent ++ []) := by
        rw [List.take_append_drop, List.append_nil]
    _ = (codeLengthOrder.take sent.length).zip sent := by
        rw [List.zip_append hlen, List.zip_nil_right, List.append_nil]
  rw [← hzip]
  refine List.ext_getElem? fun s => ?_
  by_cases hs : s < codeLengthCount
  · rw [getElem?_ofSent hs, getElem?_setLengths nodup_codeLengthOrder h (by simpa using hs),
      List.getElem_replicate]
  · rw [List.getElem?_eq_none (by simpa using hs), List.getElem?_eq_none (by simpa using hs)]

/-- The lengths in the order in which they are sent. -/
theorem map_lengthOf_sent (h : sent.length ≤ codeLengthCount) :
    (codeLengthOrder.take sent.length).map (fun s => (Lengths.ofSent sent)[s]?) =
      sent.map some := by
  refine List.ext_getElem (by simpa using h) fun i hi hi' => ?_
  have hi : i < sent.length := by simpa using hi'
  have hlt : i < codeLengthOrder.length := by rw [length_codeLengthOrder]; omega
  have hmem : codeLengthOrder[i] < codeLengthCount :=
    lt_of_mem_codeLengthOrder (List.getElem_mem hlt)
  rw [List.getElem_map, List.getElem_map, List.getElem_take, getElem?_ofSent hmem,
    nodup_codeLengthOrder.idxOf_getElem i hlt, List.getD_eq_getElem _ _ hi]

theorem ofSent_le {n : Nat} (h : ∀ len ∈ sent, len.toNat ≤ n) :
    ∀ len ∈ Lengths.ofSent sent, len.toNat ≤ n := by
  intro len hlen
  obtain ⟨s, -, rfl⟩ := List.mem_map.mp hlen
  rcases Nat.lt_or_ge (codeLengthOrder.idxOf s) sent.length with hlt | hge
  · rw [List.getD_eq_getElem _ _ hlt]
    exact h _ (List.getElem_mem hlt)
  · rw [List.getD_eq_default _ _ hge]
    exact Nat.zero_le n

end DeflateHeader
