import DeflateHeader.Proofs.BitStrings
import DeflateHeader.Proofs.CodeSpace
import DeflateHeader.Proofs.Outcomes

/-!
# The canonical code of given lengths

`codeNumber` is the code of a symbol in closed form: the codes of one length follow each other in
the order of the symbols, after the codes that the shorter lengths take. `codeBits` are its bits as
they stand in the stream, the most significant one first.

In a feasible code every code fits its length (`codeNumber_lt`) and none begins another
(`eq_of_codeBits_isPrefix`), so at most one symbol has a code that a bit string begins with
(`eq_of_isPrefix`). `assign` accepts exactly the feasible lengths and lists exactly these codes
(`assign_ok`, `assign_error`).
-/

namespace DeflateHeader

namespace Lengths

variable {lens : Lengths} {s t : Nat}

/-- The length of a symbol's code; 0 for a symbol without one. -/
def lengthOf (lens : Lengths) (symbol : Nat) : Nat := (lens.getD symbol 0).toNat

/-- The code of a symbol: the codes of all shorter lengths come first, each continued to the
length of this one, then those of its length that belong to smaller symbols. -/
def codeNumber (lens : Lengths) (symbol : Nat) : Nat :=
  ∑ l ∈ Finset.Ico 1 (lens.lengthOf symbol), lens.count l * 2 ^ (lens.lengthOf symbol - l)
    + count (lens.take symbol) (lens.lengthOf symbol)

/-- The bits of a symbol's code, the most significant one first. -/
def codeBits (lens : Lengths) (symbol : Nat) : List Bool :=
  (Bits.ofNat (lens.lengthOf symbol) (lens.codeNumber symbol)).reverse

@[simp] theorem length_codeBits (lens : Lengths) (s : Nat) :
    (lens.codeBits s).length = lens.lengthOf s := by
  simp [codeBits]

theorem toNat_codeBits (lens : Lengths) (s : Nat) :
    Bits.toNat (lens.codeBits s) = bitReverse (lens.codeNumber s) (lens.lengthOf s) := rfl

theorem lengthOf_of_getElem? {len : UInt8} (h : lens[s]? = some len) :
    lens.lengthOf s = len.toNat := by
  simp [lengthOf, List.getD, h]

theorem lengthOf_eq_zero (h : lens.length ≤ s) : lens.lengthOf s = 0 := by
  simp [lengthOf, List.getD, h]

theorem lt_length_of_pos (h : 0 < lens.lengthOf s) : s < lens.length := by
  by_contra hn
  rw [lengthOf_eq_zero (by omega)] at h
  omega

theorem lengthOf_eq_getElem (h : s < lens.length) : lens.lengthOf s = lens[s].toNat :=
  lengthOf_of_getElem? (List.getElem?_eq_getElem h)

theorem lengthOf_le_maxLength (lens : Lengths) (s : Nat) : lens.lengthOf s ≤ lens.maxLength := by
  by_cases h : s < lens.length
  · rw [lengthOf_eq_getElem h]
    exact le_maxLength (List.getElem_mem h)
  · rw [lengthOf_eq_zero (by omega)]
    exact Nat.zero_le _

/-! ## Codes within the code space -/

/-- Among the symbols of its length a symbol comes after the smaller ones. -/
theorem count_take_lt (h : s < t) (ht : t ≤ lens.length) :
    count (lens.take s) (lens.lengthOf s) < count (lens.take t) (lens.lengthOf s) := by
  have hs : s < lens.length := by omega
  have hle : ∀ l, count (lens.take (s + 1)) l ≤ count (lens.take t) l := fun l =>
    List.Sublist.countP_le (List.take_sublist_take_left (by omega))
  refine Nat.lt_of_lt_of_le ?_ (hle _)
  rw [List.take_add_one, List.getElem?_eq_getElem hs, count_append, Option.toList_some, count_cons,
    lengthOf_eq_getElem hs]
  simp

theorem count_take_lt_count (h : s < lens.length) :
    count (lens.take s) (lens.lengthOf s) < lens.count (lens.lengthOf s) := by
  simpa using count_take_lt h (Nat.le_refl lens.length)

theorem codeNumber_eq (h : 0 < lens.lengthOf s) :
    lens.codeNumber s =
      firstCode lens.count (lens.lengthOf s) + count (lens.take s) (lens.lengthOf s) := by
  rw [codeNumber, firstCode_eq_sum _ h]

/-- Where the part of the code space begins that a code takes. -/
theorem codeNumber_mul (h : 0 < lens.lengthOf s) (hm : lens.lengthOf s ≤ maxCodeBits) :
    lens.codeNumber s * 2 ^ (maxCodeBits - lens.lengthOf s) =
      lens.below (lens.lengthOf s) +
        count (lens.take s) (lens.lengthOf s) * 2 ^ (maxCodeBits - lens.lengthOf s) := by
  rw [codeNumber_eq h, Nat.add_mul, firstCode_mul h hm]

/-- The part of the code space that a code takes ends where the longer codes begin, or before. -/
theorem codeNumber_succ_mul_le (h : 0 < lens.lengthOf s) (hm : lens.lengthOf s ≤ maxCodeBits) :
    (lens.codeNumber s + 1) * 2 ^ (maxCodeBits - lens.lengthOf s) ≤
      lens.below (lens.lengthOf s + 1) := by
  rw [Nat.add_mul, codeNumber_mul h hm, below_succ h, Nat.add_assoc, ← Nat.add_mul]
  exact Nat.add_le_add_left
    (Nat.mul_le_mul_right _ (count_take_lt_count (lt_length_of_pos h))) _

/-- The order of the codes: by their length, and by their symbol within one length. -/
def Precedes (lens : Lengths) (s t : Nat) : Prop :=
  lens.lengthOf s < lens.lengthOf t ∨ lens.lengthOf s = lens.lengthOf t ∧ s < t

/-- The part of the code space that a code takes ends where that of the next one begins, or before. -/
theorem Precedes.codeNumber_succ_mul_le (h : lens.Precedes s t) (hs : 0 < lens.lengthOf s)
    (hm : lens.lengthOf t ≤ maxCodeBits) :
    (lens.codeNumber s + 1) * 2 ^ (maxCodeBits - lens.lengthOf s) ≤
      lens.codeNumber t * 2 ^ (maxCodeBits - lens.lengthOf t) := by
  rcases h with hlt | ⟨heq, hlt⟩
  · -- The longer code lies beyond all codes of the shorter length.
    rw [codeNumber_mul (by omega) hm]
    calc (lens.codeNumber s + 1) * 2 ^ (maxCodeBits - lens.lengthOf s)
        ≤ lens.below (lens.lengthOf s + 1) := Lengths.codeNumber_succ_mul_le hs (by omega)
      _ ≤ lens.below (lens.lengthOf t) := below_mono (by omega) (by omega)
      _ ≤ _ := Nat.le_add_right _ _
  · -- Of two codes of one length, more codes of that length come before the second.
    have hcount := count_take_lt hlt (Nat.le_of_lt (lt_length_of_pos (heq ▸ hs)))
    have hnext : lens.codeNumber s + 1 ≤ lens.codeNumber t := by
      rw [codeNumber_eq hs, codeNumber_eq (heq ▸ hs), ← heq]
      omega
    rw [heq]
    exact Nat.mul_le_mul_right _ hnext

theorem Feasible.lengthOf_le (h : lens.Feasible) (s : Nat) : lens.lengthOf s ≤ maxCodeBits :=
  Nat.le_trans (lengthOf_le_maxLength lens s) h.maxLength_le

theorem codeNumber_lt (hf : lens.Feasible) (h : 0 < lens.lengthOf s) :
    lens.codeNumber s < 2 ^ lens.lengthOf s := by
  have hm := hf.lengthOf_le s
  have hle := Nat.le_trans (codeNumber_succ_mul_le h hm) (hf.below_le (by omega))
  have hp : 2 ^ maxCodeBits = 2 ^ lens.lengthOf s * 2 ^ (maxCodeBits - lens.lengthOf s) := by
    rw [← Nat.pow_add, Nat.add_sub_cancel' hm]
  rw [hp] at hle
  exact Nat.le_of_mul_le_mul_right hle (Nat.two_pow_pos _)

/-! ## No code begins another -/

/-- A field that begins another, read from the top, is its upper part. -/
theorem eq_div_of_reverse_isPrefix {m n v w : Nat} (hv : v < 2 ^ m) (hw : w < 2 ^ n)
    (h : (Bits.ofNat m v).reverse <+: (Bits.ofNat n w).reverse) :
    m ≤ n ∧ v = w / 2 ^ (n - m) := by
  have hmn : m ≤ n := by simpa using h.length_le
  refine ⟨hmn, ?_⟩
  have hsplit := Bits.ofNat_add (n - m) m w
  rw [Nat.sub_add_cancel hmn] at hsplit
  rw [hsplit, List.reverse_append, List.prefix_iff_eq_take,
    List.take_append_of_le_length (by simp), List.take_of_length_le (by simp)] at h
  have hq : w / 2 ^ (n - m) < 2 ^ m := by
    rw [Nat.div_lt_iff_lt_mul (Nat.two_pow_pos _), ← Nat.pow_add, Nat.add_sub_cancel' hmn]
    exact hw
  have := Bits.ofNat_inj.mp (List.reverse_inj.mp h)
  rwa [Nat.mod_eq_of_lt hv, Nat.mod_eq_of_lt hq] at this

/-- No code of a feasible set begins another one. -/
theorem eq_of_codeBits_isPrefix (hf : lens.Feasible) (hs : 0 < lens.lengthOf s)
    (ht : 0 < lens.lengthOf t) (h : lens.codeBits s <+: lens.codeBits t) : s = t := by
  obtain ⟨hle, hdiv⟩ := eq_div_of_reverse_isPrefix (codeNumber_lt hf hs) (codeNumber_lt hf ht) h
  have hmt := hf.lengthOf_le t
  have hp : 2 ^ (maxCodeBits - lens.lengthOf s) =
      2 ^ (lens.lengthOf t - lens.lengthOf s) * 2 ^ (maxCodeBits - lens.lengthOf t) := by
    rw [← Nat.pow_add]; congr 1; omega
  by_contra hne
  rcases (show lens.Precedes s t ∨ lens.Precedes t s by unfold Precedes; omega) with hst | hts
  · -- The second code lies beyond all that the first one begins.
    have hend := hst.codeNumber_succ_mul_le hs hmt
    rw [hp, ← Nat.mul_assoc] at hend
    have hup := Nat.le_of_mul_le_mul_right hend (Nat.two_pow_pos _)
    rw [← Nat.le_div_iff_mul_le (Nat.two_pow_pos _), ← hdiv] at hup
    omega
  · -- Then the lengths are equal, and so would the codes be.
    have hend := hts.codeNumber_succ_mul_le ht (hf.lengthOf_le s)
    obtain ⟨heq, -⟩ := hts.resolve_left (by omega)
    rw [heq, Nat.sub_self, Nat.pow_zero, Nat.div_one] at hdiv
    rw [heq, hdiv] at hend
    have := Nat.le_of_mul_le_mul_right hend (Nat.two_pow_pos _)
    omega

/-- A bit string begins with the code of at most one symbol. -/
theorem eq_of_isPrefix {bits : List Bool} (hf : lens.Feasible) (hs : 0 < lens.lengthOf s)
    (ht : 0 < lens.lengthOf t) (h : lens.codeBits s <+: bits) (h' : lens.codeBits t <+: bits) :
    s = t := by
  rcases Nat.le_total (lens.lengthOf s) (lens.lengthOf t) with hle | hle
  · exact eq_of_codeBits_isPrefix hf hs ht
      (List.prefix_of_prefix_length_le h h' (by simpa using hle))
  · exact (eq_of_codeBits_isPrefix hf ht hs
      (List.prefix_of_prefix_length_le h' h (by simpa using hle))).symm

/-! ## The assigned code words -/

/-- The code word of a symbol, if it has one. -/
def word? (lens : Lengths) (symbol : Nat) : Option CodeWord :=
  if lens.lengthOf symbol = 0 then none
  else some ⟨Bits.toNat (lens.codeBits symbol), symbol % symbolRange⟩

/-- The code words of all symbols in use, in the order of the symbols. -/
def words (lens : Lengths) : CodeBook := (List.range lens.length).filterMap lens.word?

theorem mem_words {w : CodeWord} (hw : w ∈ lens.words) :
    ∃ s < lens.length, w = ⟨Bits.toNat (lens.codeBits s), s % symbolRange⟩ := by
  obtain ⟨s, hs, hword⟩ := List.mem_filterMap.mp hw
  rw [word?] at hword
  split at hword
  · cases hword
  · exact ⟨s, List.mem_range.mp hs, (Option.some.inj hword).symm⟩

theorem lt_length_of_mem_words {w : CodeWord} (hw : w ∈ lens.words) : w.symbol < lens.length := by
  obtain ⟨s, hs, rfl⟩ := mem_words hw
  exact Nat.lt_of_le_of_lt (Nat.mod_le s symbolRange) hs

/-- No code is longer than the longest length. -/
theorem code_lt_of_mem_words {w : CodeWord} (hw : w ∈ lens.words) : w.code < 2 ^ lens.maxLength := by
  obtain ⟨s, -, rfl⟩ := mem_words hw
  have hlt := Bits.toNat_lt (lens.codeBits s)
  rw [length_codeBits] at hlt
  exact Nat.lt_of_lt_of_le hlt (Nat.pow_le_pow_right (by decide) (lengthOf_le_maxLength lens s))

/-- The words stand in the order of their symbols. -/
theorem map_symbol_words (lens : Lengths) : lens.words.map CodeWord.symbol =
    ((List.range lens.length).filter fun s => lens.lengthOf s ≠ 0).map (· % symbolRange) := by
  rw [words]
  induction List.range lens.length with
  | nil => rfl
  | cons s symbols ih =>
    by_cases hs : lens.lengthOf s = 0
    · have hnone : lens.word? s = none := if_pos hs
      rw [List.filterMap_cons_none hnone, List.filter_cons_of_neg (by simpa using hs), ih]
    · have hsome : lens.word? s = some _ := if_neg hs
      rw [List.filterMap_cons_some hsome, List.filter_cons_of_pos (by simpa using hs), List.map_cons,
        List.map_cons, ih]

/-- Within the range of symbols, a word for each symbol that has a length. -/
theorem words_eq (hn : lens.length ≤ symbolRange) :
    lens.words = ((List.range lens.length).filter fun s => 0 < lens.lengthOf s).map fun s =>
      ⟨bitReverse (lens.codeNumber s) (lens.lengthOf s), s⟩ := by
  rw [words, ← List.filterMap_eq_map, List.filterMap_filter]
  refine List.filterMap_congr fun s hs => ?_
  rw [List.mem_range] at hs
  rw [word?, toNat_codeBits, Nat.mod_eq_of_lt (by omega)]
  by_cases hz : lens.lengthOf s = 0
  · simp [hz]
  · simp [hz, Nat.pos_of_ne_zero hz]

theorem mem_words_iff (hn : lens.length ≤ symbolRange) {w : CodeWord} :
    w ∈ lens.words ↔ 0 < lens.lengthOf w.symbol ∧ w.code = Bits.toNat (lens.codeBits w.symbol) := by
  obtain ⟨code, symbol⟩ := w
  simp only [words_eq hn, List.mem_map, List.mem_filter, List.mem_range, decide_eq_true_eq,
    CodeWord.mk.injEq, toNat_codeBits]
  constructor
  · rintro ⟨s, ⟨-, hpos⟩, rfl, rfl⟩
    exact ⟨hpos, rfl⟩
  · rintro ⟨hpos, rfl⟩
    exact ⟨symbol, ⟨lt_length_of_pos hpos, hpos⟩, rfl, rfl⟩

theorem pairwise_words (hn : lens.length ≤ symbolRange) :
    lens.words.Pairwise fun w w' => w.symbol < w'.symbol := by
  rw [words_eq hn, List.pairwise_map]
  exact List.pairwise_lt_range.filter _

end Lengths

open Lengths

variable {lens : Lengths}

/-- The walk over the lengths finds the code of each symbol in the counter of its length, which
has moved on by one for every smaller symbol of that length. -/
private theorem codeWords_eq (hm : ∀ len ∈ lens, len.toNat ≤ maxCodeBits) {pre suf : Lengths}
    (h : lens = pre ++ suf) {next : Array Nat}
    (hnext : ∀ l, 1 ≤ l → l ≤ maxCodeBits →
      next[l]? = some (firstCode lens.count l + pre.count l)) :
    codeWords next pre.length suf =
      some ((List.range' pre.length suf.length).filterMap lens.word?) := by
  induction suf generalizing pre next with
  | nil => rfl
  | cons len suf ih =>
    have hlen : lens.lengthOf pre.length = len.toNat := lengthOf_of_getElem? (by simp [h])
    have happ : lens = (pre ++ [len]) ++ suf := by simp [h]
    have hcount : ∀ l, Lengths.count (pre ++ [len]) l = pre.count l + if len.toNat = l then 1 else 0 :=
      fun l => by rw [count_append, count_cons, count_nil, Nat.zero_add]
    rw [List.length_cons, List.range'_succ]
    by_cases hz : len = 0
    · have hw : lens.word? pre.length = none := by simp [word?, hlen, hz]
      rw [codeWords, if_pos hz, List.filterMap_cons_none hw]
      have hnext' : ∀ l, 1 ≤ l → l ≤ maxCodeBits →
          next[l]? = some (firstCode lens.count l + Lengths.count (pre ++ [len]) l) := by
        intro l h1 hl
        rw [hnext l h1 hl, hcount, hz, if_neg (by simp; omega), Nat.add_zero]
      simpa using ih happ hnext'
    · have hpos : 0 < len.toNat := Nat.pos_of_ne_zero fun h0 => hz (UInt8.toNat_inj.mp h0)
      have hle : len.toNat ≤ maxCodeBits := hm len (by simp [h])
      have htake : lens.take pre.length = pre := by simp [h]
      have hcode : firstCode lens.count len.toNat + pre.count len.toNat =
          lens.codeNumber pre.length := by
        rw [codeNumber_eq (by omega), hlen, htake]
      have hw : lens.word? pre.length =
          some ⟨bitReverse (lens.codeNumber pre.length) len.toNat, pre.length % symbolRange⟩ := by
        rw [word?, hlen, if_neg (by omega), toNat_codeBits, hlen]
      have hnext' : ∀ l, 1 ≤ l → l ≤ maxCodeBits →
          (next.setIfInBounds len.toNat (lens.codeNumber pre.length + 1))[l]? =
            some (firstCode lens.count l + Lengths.count (pre ++ [len]) l) := by
        intro l h1 hl
        rw [Array.getElem?_setIfInBounds, hcount]
        split
        · rename_i heq
          have hsize := (Array.getElem?_eq_some_iff.mp (hnext _ hpos hle)).1
          rw [← heq, ← hcode, Nat.add_assoc, if_pos hsize]
        · rw [hnext l h1 hl, Nat.add_zero]
      rw [codeWords, if_neg hz, hnext _ hpos hle, hcode, List.filterMap_cons_some hw]
      have := ih happ hnext'
      rw [List.length_append, List.length_singleton] at this
      simp only [this, Option.map_some]

/-- From the first code of each length on, the walk lists the code words of all symbols. -/
theorem codeWords_firstCode (hm : ∀ len ∈ lens, len.toNat ≤ maxCodeBits) :
    codeWords ((List.range (maxCodeBits + 1)).map (firstCode lens.count)).toArray 0 lens =
      some lens.words := by
  have hnext : ∀ l, 1 ≤ l → l ≤ maxCodeBits →
      ((List.range (maxCodeBits + 1)).map (firstCode lens.count)).toArray[l]? =
        some (firstCode lens.count l + Lengths.count [] l) := by
    intro l _ hl
    rw [List.getElem?_toArray, List.getElem?_map, List.getElem?_range (by omega)]
    rfl
  have hwords := codeWords_eq hm (List.nil_append lens).symm hnext
  rwa [List.length_nil, ← List.range_eq_range'] at hwords

theorem getD_counts (hm : ∀ len ∈ lens, len.toNat ≤ maxCodeBits) :
    (fun l => lens.counts.getD l 0) = lens.count := by
  funext l
  rw [Lengths.counts, Array.getD_eq_getD_getElem?, List.getElem?_toArray, List.getElem?_map]
  by_cases hl : l < maxCodeBits + 1
  · rw [List.getElem?_range hl]
    rfl
  · rw [List.getElem?_eq_none (by simpa using Nat.le_of_not_lt hl),
      count_eq_zero_of_lt hm (by omega)]
    rfl

private theorem find?_range'_reverse {p : Nat → Bool} {n m : Nat} (hmn : m ≤ n)
    (hp : m = 0 ∨ p m) (hgt : ∀ l, m < l → l ≤ n → p l = false) :
    ((List.range' 1 n).reverse.find? p).getD 0 = m := by
  induction n with
  | zero => simp [show m = 0 by omega]
  | succ n ih =>
    rw [List.range'_1_concat, List.reverse_append, List.reverse_singleton, List.singleton_append]
    by_cases h : m = 1 + n
    · subst h
      rw [List.find?_cons_of_pos (hp.resolve_left (by omega))]
      rfl
    · rw [List.find?_cons_of_neg (by simp [hgt (1 + n) (by omega) (by omega)])]
      exact ih (by omega) fun l h1 h2 => hgt l h1 (by omega)

theorem longest_eq_maxLength (hm : ∀ len ∈ lens, len.toNat ≤ maxCodeBits) :
    longest lens.count = lens.maxLength := by
  refine find?_range'_reverse (maxLength_le hm) ?_ fun l hl _ => ?_
  · refine (Nat.eq_zero_or_pos lens.maxLength).imp_right fun hpos => ?_
    obtain ⟨len, hmem, heq⟩ := maxLength_mem (Nat.ne_of_gt hpos)
    have : 0 < lens.count lens.maxLength := by
      rw [Lengths.count, List.countP_pos_iff]
      exact ⟨len, hmem, by simp [heq]⟩
    simpa using Nat.ne_of_gt this
  · rw [count_eq_zero fun len hmem => by have := le_maxLength hmem; omega]
    rfl

theorem tooLong?_eq_none_iff :
    tooLong? lens = none ↔ ∀ len ∈ lens, len.toNat ≤ maxCodeBits := by
  simp [tooLong?]

namespace CodeBook

/-- Feasible lengths are accepted, and the book then has exactly their code words. -/
theorem assign_ok (h : lens.Feasible) (book : CodeBook) :
    assign lens book = .ok lens.maxLength lens.words := by
  have hex : exhausted? lens.count lens.maxLength = none :=
    (exhausted?_eq_none_iff (fun _ => le_maxLength) h.maxLength_le).mpr h.kraft_le
  unfold assign
  simp only [tooLong?_eq_none_iff.mpr h.le_max, getD_counts h.le_max, longest_eq_maxLength h.le_max,
    hex, codeWords_firstCode h.le_max]
  rfl

/-- The first length above 15 is reported before anything else, and the book stays as it was. -/
theorem assign_tooLong {len : UInt8} (h : tooLong? lens = some len) (book : CodeBook) :
    assign lens book = .error (.invalid (.codeLengthTooLong len.toNat)) book := by
  unfold assign
  simp [run_bind, h]

/-- Then it is the first length at which the code space is exhausted. -/
theorem assign_exhausted (hm : ∀ len ∈ lens, len.toNat ≤ maxCodeBits) {l : Nat}
    (h : exhausted? lens.count lens.maxLength = some l) (book : CodeBook) :
    assign lens book = .error (.invalid (.oversubscribed l (lens.count l))) book := by
  unfold assign
  simp only [tooLong?_eq_none_iff.mpr hm, getD_counts hm, longest_eq_maxLength hm, h,
    congrFun (getD_counts hm) l]
  rfl

/-- Lengths within the range that are not feasible take more code space than there is. -/
theorem exists_exhausted (hm : ∀ len ∈ lens, len.toNat ≤ maxCodeBits) (h : ¬ lens.Feasible) :
    ∃ l, exhausted? lens.count lens.maxLength = some l := by
  have hk : ¬ lens.kraft ≤ 2 ^ maxCodeBits := fun hk => h ⟨hm, hk⟩
  exact Option.ne_none_iff_exists'.mp
    (mt (exhausted?_eq_none_iff (fun _ => le_maxLength) (maxLength_le hm)).mp hk)

theorem assign_oversubscribed (hm : ∀ len ∈ lens, len.toNat ≤ maxCodeBits) (h : ¬ lens.Feasible)
    (book : CodeBook) :
    ∃ l, assign lens book = .error (.invalid (.oversubscribed l (lens.count l))) book := by
  obtain ⟨l, hl⟩ := exists_exhausted hm h
  exact ⟨l, assign_exhausted hm hl book⟩

/-- Other lengths are rejected, and the book stays as it was. -/
theorem assign_error (h : ¬ lens.Feasible) (book : CodeBook) :
    ∃ detail, assign lens book = .error (.invalid detail) book := by
  cases htl : tooLong? lens with
  | some len => exact ⟨_, assign_tooLong htl book⟩
  | none =>
    obtain ⟨l, hl⟩ := assign_oversubscribed (tooLong?_eq_none_iff.mp htl) h book
    exact ⟨_, hl⟩

theorem feasible_of_assign {book words : CodeBook} {n : Nat} (h : assign lens book = .ok n words) :
    lens.Feasible := by
  by_contra hn
  obtain ⟨detail, he⟩ := assign_error hn book
  rw [he] at h
  cases h

/-- What `assign` returns and lists when it accepts the lengths. -/
theorem assign_inv {book words : CodeBook} {n : Nat} (h : assign lens book = .ok n words) :
    lens.Feasible ∧ n = lens.maxLength ∧ words = lens.words := by
  have hf := feasible_of_assign h
  rw [assign_ok hf] at h
  cases h
  exact ⟨hf, rfl, rfl⟩

end CodeBook
end DeflateHeader
