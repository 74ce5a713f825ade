import DeflateHeader.Proofs.CheckedArithmetic
import DeflateHeader.Proofs.CodecBuilds

/-!
# Codes with machine words

The assignment of codes and the two tables in checked arithmetic, loop by loop: the lengths are
counted, the code space is checked, the first codes and then all codes are counted up, and each code
is placed. The assignment runs like the one it checks for any number of lengths that can be counted
(`assign_eq`), the builds for up to `slotSymbols` lengths, which is more than any alphabet has.

A count is at most the number of lengths, and the code space left at a length is between zero and
`2 ^ 15` as long as it is not exhausted. Codes are only counted up once the lengths are known to be
feasible: then no counter passes the number of codes of its length.
-/

namespace DeflateHeader.Checked

variable {σ : Type}

/-! ## Arrays by length -/

/-- The values of a function at the lengths 0 to 15. -/
def byLength (f : Nat → Nat) : Array Nat := ((List.range (maxCodeBits + 1)).map f).toArray

section ByLength

variable {f g : Nat → Nat} {l v : Nat}

@[simp] theorem size_byLength (f : Nat → Nat) : (byLength f).size = maxCodeBits + 1 := by
  simp [byLength]

theorem getElem?_byLength (f : Nat → Nat) (h : l ≤ maxCodeBits) : (byLength f)[l]? = some (f l) := by
  rw [byLength, List.getElem?_toArray, List.getElem?_map, List.getElem?_range (by omega)]
  rfl

theorem replicate_eq_byLength : Array.replicate (maxCodeBits + 1) 0 = byLength fun _ => 0 := rfl

theorem byLength_congr (h : ∀ l, l ≤ maxCodeBits → f l = g l) : byLength f = byLength g := by
  refine congrArg List.toArray (List.map_congr_left fun l hl => h l ?_)
  have := List.mem_range.mp hl
  omega

theorem store_byLength (f : Nat → Nat) (h : l ≤ maxCodeBits) (v : Nat) :
    store (byLength f) l v = some (byLength fun i => if i = l then v else f i) := by
  rw [store_eq (by rw [size_byLength]; omega)]
  refine congrArg some (Array.ext_getElem? fun i => ?_)
  rw [Array.getElem?_setIfInBounds, size_byLength]
  by_cases hi : i ≤ maxCodeBits
  · rw [getElem?_byLength _ hi, getElem?_byLength _ hi]
    grind
  · have hout : ∀ f : Nat → Nat, (byLength f)[i]? = none := fun f =>
      Array.getElem?_eq_none (by rw [size_byLength]; omega)
    rw [hout, hout, if_neg (by omega)]

end ByLength

/-! ## The lengths -/

/-- Adds the lengths to the counts, up to the first one above 15. -/
def countLengths (counts : Array Nat) : Lengths → EStateM Error σ (Array Nat)
  | [] => return counts
  | len :: rest =>
    if maxCodeBits < len.toNat then throw (.invalid (.codeLengthTooLong len.toNat))
    else do
      let n ← counts[len.toNat]?
      let n ← add 32 n 1
      let counts ← store counts len.toNat n
      countLengths counts rest

/-- The longest length in use, 0 if there is none. -/
def longest (counts : Array Nat) : Option Nat := do
  let used ← (List.range' 1 maxCodeBits).reverse.findM? fun l => do
    let n ← counts[l]?
    return n != 0
  return used.getD 0

/-- Each round of the loop adds one to a count. -/
theorem countLengths_run {f : Nat → Nat} (lens : Lengths)
    (h : ∀ l, f l + lens.length < 2 ^ 32) (s : σ) :
    countLengths (byLength f) lens s = match tooLong? lens with
      | some len => .error (.invalid (.codeLengthTooLong len.toNat)) s
      | none => .ok (byLength fun l => f l + lens.count l) s := by
  induction lens generalizing f with
  | nil => rfl
  | cons len rest ih =>
    simp only [List.length_cons] at h
    rw [countLengths, tooLong?]
    by_cases hlen : maxCodeBits < len.toNat
    · rw [if_pos hlen, List.find?_cons_of_pos (by simpa using hlen)]
      rfl
    · have hle := Nat.le_of_not_lt hlen
      rw [if_neg hlen, List.find?_cons_of_neg (by simpa using hlen), run_lift (getElem?_byLength f hle),
        run_lift (add_eq (by have := h len.toNat; omega)), run_lift (store_byLength f hle _),
        ih (fun l => by have := h l; have := h len.toNat; split <;> omega), tooLong?]
      have hcount : ∀ l, (if l = len.toNat then f len.toNat + 1 else f l) + Lengths.count rest l =
          f l + Lengths.count (len :: rest) l := by
        intro l
        rw [Lengths.count_cons]
        split <;> grind
      simp only [hcount]

theorem findM?_eq {α : Type} {p : α → Option Bool} {q : α → Bool} (xs : List α)
    (h : ∀ x ∈ xs, p x = some (q x)) : xs.findM? p = some (xs.find? q) := by
  induction xs with
  | nil => rfl
  | cons x xs ih =>
    have ih := ih fun y hy => h y (List.mem_cons_of_mem x hy)
    rw [List.findM?, h x List.mem_cons_self, List.find?]
    cases q x with
    | true => rfl
    | false => exact ih

theorem longest_eq (count : Nat → Nat) :
    longest (byLength count) = some (DeflateHeader.longest count) := by
  have hfind := findM?_eq (List.range' 1 maxCodeBits).reverse (q := fun l => count l != 0)
    (p := fun l => do
      let n ← (byLength count)[l]?
      return n != 0) fun l hl => by
    rw [List.mem_reverse, List.mem_range'_1] at hl
    rw [getElem?_byLength _ (by omega)]
    rfl
  rw [longest, hfind]
  rfl

/-! ## The code space -/

/-- Fails at the first of the lengths at which the code space is exhausted, where `left` is what the
length before left of it. -/
def checkSpace (counts : Array Nat) (left : Int) : List Nat → EStateM Error σ Unit
  | [] => return ()
  | l :: rest => do
    let count ← counts[l]?
    let doubled ← fitSigned (2 * left)
    let left ← fitSigned (doubled - count)
    if left < 0 then throw (.invalid (.oversubscribed l count))
    checkSpace counts left rest

theorem unused_le (count : Nat → Nat) (l : Nat) : unused count l ≤ (2 ^ l : Nat) := by
  induction l with
  | zero => exact Int.le_refl 1
  | succ l ih =>
    rw [unused, Nat.pow_succ]
    omega

/-- What is left doubles from one length to the next, less the codes of that length. -/
theorem checkSpace_run {count : Nat → Nat} (hcount : ∀ l, count l < 2 ^ 32) {k n : Nat}
    (hn : k + n ≤ maxCodeBits) (h : 0 ≤ unused count k) (s : σ) :
    checkSpace (byLength count) (unused count k) (List.range' (k + 1) n) s =
      match (List.range' (k + 1) n).find? fun l => unused count l < 0 with
      | some l => .error (.invalid (.oversubscribed l (count l))) s
      | none => .ok () s := by
  induction n generalizing k with
  | zero => rfl
  | succ n ih =>
    have hle := unused_le count k
    have hpow : 2 ^ k ≤ 2 ^ maxCodeBits := Nat.pow_le_pow_right (by decide) (by omega)
    have hc := hcount (k + 1)
    simp only [maxCodeBits] at hc hpow
    rw [List.range'_succ, checkSpace, run_lift (getElem?_byLength _ (by omega)),
      run_lift (fitSigned_eq (by omega)), run_lift (fitSigned_eq (by omega))]
    have hstep : 2 * unused count k - count (k + 1) = unused count (k + 1) := rfl
    rw [hstep]
    by_cases hneg : unused count (k + 1) < 0
    · rw [if_pos hneg, List.find?_cons_of_pos (by simpa using hneg)]
      rfl
    · rw [if_neg hneg, List.find?_cons_of_neg (by simpa using hneg)]
      exact ih (by omega) (by omega)

/-! ## Codes -/

/-- The first code of each of the lengths into `next`, where `code` is the one of the length before. -/
def firstCodes (counts next : Array Nat) (code : Nat) : List Nat → Option (Array Nat)
  | [] => some next
  | l :: rest => do
    let before ← sub l 1
    let count ← counts[before]?
    let sum ← add 32 code count
    let code ← shl 32 sum 1
    let next ← store next l code
    firstCodes counts next code rest

/-- The `width` low bits of `value` in reverse order, from a reversal of 16 bits. -/
def bitReverse (value width : Nat) : Option Nat :=
  if width = 0 then some 0
  else do
    let above ← sub 16 width
    shr 16 (DeflateHeader.bitReverse value 16) above

/-- The code words for the symbols from `symbol` on. -/
def codeWords (next : Array Nat) (symbol : Nat) : Lengths → Option CodeBook
  | [] => some []
  | len :: rest =>
    if len = 0 then codeWords next (symbol + 1) rest
    else do
      let code ← next[len.toNat]?
      let reversed ← bitReverse code len.toNat
      let following ← add 32 code 1
      let next ← store next len.toNat following
      let words ← codeWords next (symbol + 1) rest
      return ⟨reversed, symbol % symbolRange⟩ :: words

/-- Replaces the book by the code words of the lengths and returns the longest length. -/
def assign (lens : Lengths) : EStateM Error CodeBook Nat := do
  let counts ← countLengths (Array.replicate (maxCodeBits + 1) 0) lens
  let maxBits ← longest counts
  checkSpace counts 1 (List.range' 1 maxBits)
  let counts ← store counts 0 0
  let next ← firstCodes counts (Array.replicate (maxCodeBits + 1) 0) 0 (List.range' 1 maxCodeBits)
  let words ← codeWords next 0 lens
  set words
  return maxBits

theorem firstCodes_eq {count : Nat → Nat}
    (hspace : ∀ l, 1 ≤ l → l ≤ maxCodeBits → firstCode count l + count l ≤ 2 ^ l) {k n : Nat}
    (hn : k + n = maxCodeBits) :
    firstCodes (byLength fun l => if l = 0 then 0 else count l)
        (byLength fun l => if l ≤ k then firstCode count l else 0) (firstCode count k)
        (List.range' (k + 1) n) = some (byLength (firstCode count)) := by
  induction n generalizing k with
  | zero => exact congrArg some (byLength_congr fun l hl => if_pos (by omega))
  | succ n ih =>
    have hsum : firstCode count k + (if k = 0 then 0 else count k) ≤ 2 ^ k := by
      split
      · subst k
        exact Nat.zero_le _
      · exact hspace k (by omega) (by omega)
    have hpow : 2 ^ k ≤ 2 ^ maxCodeBits := Nat.pow_le_pow_right (by decide) (by omega)
    simp only [maxCodeBits] at hpow
    have hstep : (firstCode count k + if k = 0 then 0 else count k) <<< 1 = firstCode count (k + 1) := by
      rw [firstCode, Nat.shiftLeft_eq, Nat.pow_one, Nat.mul_comm]
    have hshift : firstCode count (k + 1) < 2 ^ 32 := by
      rw [firstCode]
      omega
    have hnext : (fun l => if l = k + 1 then firstCode count (k + 1) else
        if l ≤ k then firstCode count l else 0) =
        fun l => if l ≤ k + 1 then firstCode count l else 0 := by
      funext l
      grind
    rw [List.range'_succ, firstCodes]
    simp only [Option.bind_eq_bind]
    rw [sub_eq (Nat.le_add_left 1 k), Option.bind_some, Nat.add_sub_cancel,
      getElem?_byLength _ (by omega), Option.bind_some, add_eq (by omega), Option.bind_some,
      shl_eq (by decide) (by rw [hstep]; exact hshift), Option.bind_some, hstep,
      store_byLength _ (by omega), Option.bind_some, hnext]
    exact ih (by omega)

/-- The first codes of all lengths, from an array of zeros. -/
theorem firstCodes_all {lens : Lengths} (hf : lens.Feasible) :
    firstCodes (byLength fun l => if l = 0 then 0 else lens.count l) (byLength fun _ => 0) 0
      (List.range' 1 maxCodeBits) = some (byLength (firstCode lens.count)) := by
  have hzero : (fun l => if l ≤ 0 then firstCode lens.count l else 0) = fun _ => 0 := by
    funext l
    cases l <;> rfl
  have hrun := firstCodes_eq (fun _ => hf.firstCode_add_le) (k := 0) (Nat.zero_add maxCodeBits)
  rwa [hzero] at hrun

/-- From the first code of a length on, the codes of that length fit a word of 32 bits. -/
theorem add_count_lt_of_firstCode {lens : Lengths} (hf : lens.Feasible) {l code : Nat} (hl : 1 ≤ l)
    (h : (byLength (firstCode lens.count))[l]? = some code) : code + lens.count l < 2 ^ 32 := by
  have hsize := (Array.getElem?_eq_some_iff.mp h).1
  rw [size_byLength] at hsize
  rw [getElem?_byLength _ (by omega), Option.some.injEq] at h
  have hle := hf.firstCode_add_le hl (by omega)
  have hpow : 2 ^ l ≤ 2 ^ maxCodeBits := Nat.pow_le_pow_right (by decide) (by omega)
  simp only [maxCodeBits] at hpow
  omega

/-- The upper bits of a reversed word are the reversed lower bits. -/
theorem bitReverse_eq (value : Nat) {width : Nat} (h : width ≤ 16) :
    bitReverse value width = some (DeflateHeader.bitReverse value width) := by
  by_cases hz : width = 0
  · rw [bitReverse, if_pos hz, hz]
    rfl
  · rw [bitReverse, if_neg hz, sub_eq h]
    simp only [Option.bind_eq_bind, Option.bind_some]
    rw [shr_eq (by omega), Nat.shiftRight_eq_div_pow]
    have hlt : DeflateHeader.bitReverse value 16 / 2 ^ (16 - width) < 2 ^ width := by
      rw [Nat.div_lt_iff_lt_mul (Nat.two_pow_pos _), ← Nat.pow_add, Nat.add_sub_cancel' h]
      exact bitReverse_lt value 16
    have hbits : Bits.ofNat width (DeflateHeader.bitReverse value 16 / 2 ^ (16 - width)) =
        (Bits.ofNat width value).reverse := by
      have hdrop := Bits.drop_ofNat (Nat.sub_le 16 width) (DeflateHeader.bitReverse value 16)
      rw [ofNat_bitReverse, Nat.sub_sub_self h] at hdrop
      rw [← hdrop, List.drop_reverse, Bits.length_ofNat, Nat.sub_sub_self h, Bits.take_ofNat h]
    have hval := Bits.toNat_ofNat width (DeflateHeader.bitReverse value 16 / 2 ^ (16 - width))
    rw [hbits, Nat.mod_eq_of_lt hlt] at hval
    exact congrArg some hval.symm

/-- A counter is moved on as often as its length still comes. -/
theorem codeWords_eq {next : Array Nat} {lens : Lengths} (hle : ∀ len ∈ lens, len.toNat ≤ maxCodeBits)
    (h : ∀ l code : Nat, 1 ≤ l → next[l]? = some code → code + lens.count l < 2 ^ 32)
    (symbol : Nat) : codeWords next symbol lens = DeflateHeader.codeWords next symbol lens := by
  induction lens generalizing next symbol with
  | nil => rfl
  | cons len rest ih =>
    have hlen := hle len List.mem_cons_self
    have hrest : ∀ len ∈ rest, len.toNat ≤ maxCodeBits := fun _ hmem =>
      hle _ (List.mem_cons_of_mem _ hmem)
    simp only [Lengths.count_cons] at h
    rw [codeWords, DeflateHeader.codeWords]
    split
    · exact ih hrest (fun l code hl hc => by have := h l code hl hc; omega) _
    · rename_i hz
      have hpos : 1 ≤ len.toNat := Nat.pos_of_ne_zero fun h0 => hz (UInt8.toNat_inj.mp h0)
      cases hc : next[len.toNat]? with
      | none => rfl
      | some code =>
        have hcode := h _ _ hpos hc
        rw [if_pos rfl] at hcode
        have hsize := (Array.getElem?_eq_some_iff.mp hc).1
        have hnext : ∀ l c : Nat, 1 ≤ l → (next.setIfInBounds len.toNat (code + 1))[l]? = some c →
            c + Lengths.count rest l < 2 ^ 32 := by
          intro l c hpos hl
          rw [Array.getElem?_setIfInBounds] at hl
          split at hl
          · grind
          · have := h l c hpos hl
            omega
        simp only [Option.bind_eq_bind, Option.bind_some]
        rw [bitReverse_eq code (Nat.le_trans hlen (by decide)), Option.bind_some,
          add_eq (by omega), Option.bind_some, store_eq hsize, Option.bind_some, ih hrest hnext]
        cases DeflateHeader.codeWords (next.setIfInBounds len.toNat (code + 1)) (symbol + 1) rest <;> rfl

/-- Nothing overflows in the assignment of codes, whether the lengths are accepted or not. -/
theorem assign_eq {lens : Lengths} (h : lens.length < 2 ^ 32) :
    assign lens = CodeBook.assign lens := by
  funext book
  have hcount : ∀ l, lens.count l < 2 ^ 32 := fun l => Nat.lt_of_le_of_lt List.countP_le_length h
  have hcounts := countLengths_run (f := fun _ => 0) lens (fun _ => by omega) book
  unfold assign
  rw [replicate_eq_byLength]
  cases htl : tooLong? lens with
  | some len =>
    rw [htl] at hcounts
    rw [run_bind_error hcounts, CodeBook.assign_tooLong htl]
  | none =>
    have hm := tooLong?_eq_none_iff.mp htl
    have hspace : checkSpace (byLength lens.count) 1 (List.range' 1 lens.maxLength) book =
        match exhausted? lens.count lens.maxLength with
        | some l => .error (.invalid (.oversubscribed l (lens.count l))) book
        | none => .ok () book :=
      checkSpace_run hcount (k := 0) (by have := Lengths.maxLength_le hm; omega) Int.one_nonneg book
    simp only [htl, Nat.zero_add] at hcounts
    rw [run_bind_ok hcounts, run_lift (longest_eq _), longest_eq_maxLength hm]
    cases hex : exhausted? lens.count lens.maxLength with
    | some l =>
      rw [hex] at hspace
      rw [run_bind_error hspace, CodeBook.assign_exhausted hm hex]
    | none =>
      rw [hex] at hspace
      have hf : lens.Feasible := ⟨hm, (exhausted?_eq_none_iff (fun _ => Lengths.le_maxLength)
        (Lengths.maxLength_le hm)).mp hex⟩
      have hstore : store (byLength lens.count) 0 0 =
          some (byLength fun l => if l = 0 then 0 else lens.count l) := store_byLength _ (by decide) _
      have hwords : codeWords (byLength (firstCode lens.count)) 0 lens = some lens.words := by
        rw [codeWords_eq hm fun _ _ => add_count_lt_of_firstCode hf]
        exact codeWords_firstCode hf.le_max
      rw [run_bind_ok hspace, run_lift hstore, run_lift (firstCodes_all hf), run_lift hwords,
        CodeBook.assign_ok hf]
      rfl

/-! ## Tables -/

/-- Places one word: its own slot, and the padded ones that are empty. -/
def place (maxBits : Nat) (slots : Array (Option Nat)) (w : SizedWord) :
    Option (Array (Option Nat)) := do
  let symbol := w.word.symbol % slotSymbols
  let slots ← LookupTable.fill symbol slots w.word.code
  let free ← sub maxBits w.length
  let copies ← shl 64 1 free
  (List.range' 1 (copies - 1)).foldlM (fun slots pad => do
    let high ← shl 64 pad w.length
    LookupTable.fillEmpty symbol slots (high ||| w.word.code)) slots

/-- The slots after all words are placed in an empty table. -/
def placeAll (maxBits : Nat) (words : List SizedWord) : Option (Array (Option Nat)) := do
  let used ← shl 64 1 maxBits
  words.foldlM (place maxBits) (Array.replicate used none)

/-- Builds a table for decoding. -/
def buildLookup (lens : Lengths) : EStateM Error (LookupTable × CodeBook) Nat := do
  let maxBits ← focus Prod.snd (fun book s => (s.1, book)) (assign lens)
  let used ← shl 64 1 maxBits
  let (table, book) ← get
  if table.capacity < used then throw (.invalid (.codeLengthTooLong maxBits))
  else do
    let words ← LookupTable.sized lens.toArray book
    let sorted := LookupTable.longestFirst words
    let slots ← placeAll maxBits sorted
    set ({ table with maxBits, slots }, sorted.map SizedWord.word)
    return maxBits

/-- The symbol whose code the bits of `key` start with. -/
def lookup (t : LookupTable) (key : Nat) : Option (Option Nat) := do
  let bit ← shl 32 1 t.maxBits
  let mask ← sub bit 1
  return (t.slots[key &&& mask]?).join

/-- Builds a table for encoding. -/
def buildCodes (lens : Lengths) : EStateM Error (CodeTable × CodeBook) Nat := do
  let maxBits ← focus Prod.snd (fun book s => (s.1, book)) (assign lens)
  let (table, book) ← get
  let sorted := CodeTable.bySymbol book
  set (CodeTable.mk (CodeTable.codesFrom 0 table.size sorted).toArray, sorted)
  return maxBits

theorem foldlM_congr {α β : Type} {f g : β → α → Option β} {xs : List α} {b : β}
    (h : ∀ b, ∀ x ∈ xs, f b x = g b x) : xs.foldlM f b = xs.foldlM g b := by
  induction xs generalizing b with
  | nil => rfl
  | cons x xs ih =>
    rw [List.foldlM_cons, List.foldlM_cons, h b x List.mem_cons_self]
    exact Option.bind_congr fun c _ => ih fun b y hy => h b y (List.mem_cons_of_mem x hy)

theorem place_eq {maxBits : Nat} (h : maxBits < 64) (slots : Array (Option Nat)) (w : SizedWord) :
    place maxBits slots w = LookupTable.place maxBits slots w := by
  unfold place LookupTable.place
  by_cases hlt : maxBits < w.length
  · cases hfill : LookupTable.fill (w.word.symbol % slotSymbols) slots w.word.code <;>
      simp [hfill, hlt, sub_eq_none]
  · have hle := Nat.le_of_not_lt hlt
    have hpad : ∀ pad ∈ List.range' 1 (2 ^ (maxBits - w.length) - 1),
        shl 64 pad w.length = some (pad <<< w.length) := by
      intro pad hpad
      rw [List.mem_range'_1] at hpad
      refine shl_eq (Nat.lt_of_le_of_lt hle h) ?_
      rw [Nat.shiftLeft_eq]
      calc pad * 2 ^ w.length < 2 ^ (maxBits - w.length) * 2 ^ w.length :=
            Nat.mul_lt_mul_of_pos_right (by omega) (Nat.two_pow_pos _)
        _ = 2 ^ maxBits := by rw [← Nat.pow_add, Nat.sub_add_cancel hle]
        _ ≤ 2 ^ 64 := Nat.pow_le_pow_right (by decide) (Nat.le_of_lt h)
    rw [if_neg hlt, sub_eq hle]
    refine Option.bind_congr fun slots _ => ?_
    simp only [Option.bind_eq_bind, Option.bind_some]
    rw [shl_one_eq (by omega), Option.bind_some, LookupTable.padded, List.foldlM_map]
    refine foldlM_congr fun slots pad hmem => ?_
    rw [hpad pad hmem]
    rfl

theorem placeAll_eq {maxBits : Nat} (h : maxBits < 64) (words : List SizedWord) :
    placeAll maxBits words = LookupTable.placeAll maxBits words := by
  unfold placeAll LookupTable.placeAll
  rw [shl_one_eq h]
  exact foldlM_congr fun slots w _ => place_eq h slots w

theorem lookup_eq {t : LookupTable} (h : t.maxBits < 32) (key : Nat) :
    lookup t key = some (t.lookup key) := by
  unfold lookup LookupTable.lookup
  rw [shl_one_eq h]
  simp only [Option.bind_eq_bind, Option.bind_some]
  rw [sub_eq Nat.one_le_two_pow, Option.bind_some, Nat.and_two_pow_sub_one_eq_mod]
  rfl

/-- A code book has no codes of more than 15 bits. -/
theorem le_of_assign {lens : Lengths} {book book' : CodeBook} {n : Nat}
    (h : CodeBook.assign lens book = .ok n book') : n ≤ maxCodeBits := by
  obtain ⟨hf, rfl, -⟩ := CodeBook.assign_inv h
  exact hf.maxLength_le

theorem buildLookup_eq {lens : Lengths} (h : lens.length ≤ slotSymbols) :
    buildLookup lens = LookupTable.build lens := by
  funext s
  unfold buildLookup LookupTable.build
  rw [assign_eq (Nat.lt_of_le_of_lt h (by decide))]
  refine run_bind_same fun maxBits s' hrun => ?_
  obtain ⟨book, hassign, -⟩ := ok_of_focus hrun
  have hle : maxBits < 64 := Nat.lt_of_le_of_lt (le_of_assign hassign) (by decide)
  obtain ⟨table, book⟩ := s'
  rw [run_lift (shl_one_eq hle), run_bind_ok run_get, run_bind_ok run_get]
  dsimp only
  by_cases hcap : table.capacity < 2 ^ maxBits
  · have hcap' : table.capacity < slotCount maxBits := hcap
    rw [if_pos hcap, if_pos hcap']
    rfl
  · have hcap' : ¬ table.capacity < slotCount maxBits := hcap
    rw [if_neg hcap, if_neg hcap']
    cases LookupTable.sized lens.toArray book with
    | none => rfl
    | some words =>
      rw [run_lift rfl, placeAll_eq hle]
      dsimp only
      cases LookupTable.placeAll maxBits (LookupTable.longestFirst words) <;> rfl

theorem buildCodes_eq {lens : Lengths} (h : lens.length ≤ slotSymbols) :
    buildCodes lens = CodeTable.build lens := by
  unfold buildCodes CodeTable.build
  rw [assign_eq (Nat.lt_of_le_of_lt h (by decide))]

/-! ## Alphabets -/

/-- Builds the table of an alphabet for decoding. -/
def buildAlphabetLookup : EStateM Error (Alphabet × CodeBook) Nat := do
  let (a, _) ← get
  focus (fun (a, book) => (a.lookup, book)) (fun (lookup, book) (a, _) => ({ a with lookup }, book))
    (buildLookup a.lens)

/-- Builds the table of an alphabet for encoding. -/
def buildAlphabetCodes : EStateM Error (Alphabet × CodeBook) Nat := do
  let (a, _) ← get
  focus (fun (a, book) => (a.codes, book)) (fun (codes, book) (a, _) => ({ a with codes }, book))
    (buildCodes a.lens)

section Building

variable {view : Codec → Alphabet} {put : Alphabet → Codec → Codec} {c : Codec}

/-- A build on an alphabet of a codec; the remark before it does not touch the alphabet. -/
theorem building_congr {act act' : EStateM Error (Alphabet × CodeBook) Nat}
    (hview : ∀ notes, view { c with notes } = view c)
    (h : act' (view c, c.book) = act (view c, c.book)) :
    Codec.building view put act' c = Codec.building view put act c := by
  obtain ⟨notes, hremark⟩ := Codec.remarkLengths_ok (view c).lens c
  unfold Codec.building
  rw [run_bind_ok run_get, run_bind_ok run_get, run_bind_ok hremark, run_bind_ok hremark]
  refine run_focus_congr ?_
  rw [hview notes]
  exact h

theorem building_lookup_eq (hview : ∀ notes, view { c with notes } = view c)
    (h : (view c).lens.length ≤ slotSymbols) :
    Codec.building view put buildAlphabetLookup c =
      Codec.building view put Alphabet.buildLookup c := by
  refine building_congr hview ?_
  unfold buildAlphabetLookup Alphabet.buildLookup
  rw [run_bind_ok run_get, run_bind_ok run_get]
  dsimp only
  rw [buildLookup_eq h]

theorem building_codes_eq (hview : ∀ notes, view { c with notes } = view c)
    (h : (view c).lens.length ≤ slotSymbols) :
    Codec.building view put buildAlphabetCodes c =
      Codec.building view put Alphabet.buildCodes c := by
  refine building_congr hview ?_
  unfold buildAlphabetCodes Alphabet.buildCodes
  rw [run_bind_ok run_get, run_bind_ok run_get]
  dsimp only
  rw [buildCodes_eq h]

end Building

end DeflateHeader.Checked
