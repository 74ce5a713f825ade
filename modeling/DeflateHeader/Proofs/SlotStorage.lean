import DeflateHeader.Proofs.Lookup

/-!
# Lookup tables in reused storage

A lookup table lives in storage that is given out once, for the longest codes its alphabet may have.
Each slot is a word of 16 bits: a mark, and 15 bits for a symbol. A build clears only as many slots as
its lookahead can reach; the slots after them keep what an earlier build wrote.

`LookupTable` has the slots that are in use, each with a symbol or none. Here the words are kept, and a
build in storage with any contents is shown to run like a build of the table (`build_of_build`): as long
as the first slots show what the table holds (`Shows`), both place a word in the same way, and a
lookup never reaches a slot after these.
-/

namespace DeflateHeader

/-- A lookup table with the words of its storage. -/
structure SlotStorage where
  slots : Array UInt16 := #[]
  /-- The longest code, and the width of the lookahead. -/
  maxBits : Nat := 0
  deriving DecidableEq, Repr

namespace SlotStorage

/-- Marks a slot that holds a symbol. -/
def mark : UInt16 := 0x8000

/-- The word for a symbol. -/
def entry (symbol : Nat) : UInt16 := UInt16.ofNat symbol ||| mark

/-- The symbol in a slot. -/
def symbolIn (slot : UInt16) : Option Nat :=
  if slot &&& mark = 0 then none else some (slot &&& ~~~mark).toNat

/-- The symbol whose code the bits of `key` start with. -/
def lookup (t : SlotStorage) (key : Nat) : Option Nat :=
  t.slots[key % slotCount t.maxBits]?.bind symbolIn

/-- Clears the first `used` slots. -/
def clear (used : Nat) (slots : Array UInt16) : Array UInt16 :=
  slots.mapIdx fun k slot => if k < used then 0 else slot

/-- Writes a slot. -/
def fill (symbol : Nat) (slots : Array UInt16) (slot : Nat) : Option (Array UInt16) :=
  if slot < slots.size then some (slots.setIfInBounds slot (entry symbol)) else none

/-- Writes a slot if it is not marked. -/
def fillEmpty (symbol : Nat) (slots : Array UInt16) (slot : Nat) : Option (Array UInt16) :=
  match slots[slot]? with
  | none => none
  | some word => if word &&& mark = 0 then fill symbol slots slot else some slots

/-- Places one word: its own slot, and the padded ones that are empty. -/
def place (maxBits : Nat) (slots : Array UInt16) (w : SizedWord) : Option (Array UInt16) := do
  if maxBits < w.length then none
  let slots ← fill w.word.symbol slots w.word.code
  (LookupTable.padded maxBits w).foldlM (fillEmpty w.word.symbol) slots

/-- Builds the table for `lens` in the storage and returns the longest length. -/
def build (lens : Lengths) : EStateM Error (SlotStorage × CodeBook) Nat := do
  let maxBits ← focus Prod.snd (fun book s => (s.1, book)) (CodeBook.assign lens)
  let (table, book) ← get
  if table.slots.size < slotCount maxBits then throw (.invalid (.codeLengthTooLong maxBits))
  match LookupTable.sized lens.toArray book with
  | none => throw (.fault .outOfRange)
  | some words =>
    let sorted := LookupTable.longestFirst words
    match sorted.foldlM (place maxBits) (clear (slotCount maxBits) table.slots) with
    | none => throw (.fault .outOfRange)
    | some slots =>
      set ({ maxBits, slots : SlotStorage }, sorted.map SizedWord.word)
      return maxBits

/-! ## Words -/

theorem toNat_entry (symbol : Nat) : (entry symbol).toNat = symbol % 65536 ||| 32768 := by
  rw [entry, UInt16.toNat_or, UInt16.toNat_ofNat']
  rfl

/-- A word for a symbol is marked. -/
theorem entry_and_mark (symbol : Nat) : entry symbol &&& mark ≠ 0 := by
  intro h
  have hzero := congrArg UInt16.toNat h
  rw [UInt16.toNat_and, toNat_entry, Nat.and_or_distrib_right] at hzero
  have hmark : 32768 ≤ symbol % 65536 &&& 32768 ||| 32768 &&& 32768 := Nat.right_le_or
  exact absurd (hzero ▸ hmark) (by decide)

@[simp] theorem symbolIn_zero : symbolIn 0 = none := rfl

/-- Of a symbol, a slot keeps 15 bits. -/
@[simp] theorem symbolIn_entry (symbol : Nat) :
    symbolIn (entry symbol) = some (symbol % slotSymbols) := by
  rw [symbolIn, if_neg (entry_and_mark symbol), UInt16.toNat_and, toNat_entry]
  have hmask : (~~~mark).toNat = 2 ^ 15 - 1 := rfl
  rw [hmask, Nat.and_two_pow_sub_one_eq_mod, Nat.or_mod_two_pow,
    Nat.mod_mod_of_dvd symbol (by decide)]
  exact congrArg some (Nat.or_zero _)

theorem symbolIn_eq_none_iff (slot : UInt16) : symbolIn slot = none ↔ slot &&& mark = 0 := by
  rw [symbolIn]
  split <;> simp_all

/-! ## Placing words -/

/-- The first words of the storage show what the slots of a table hold, `used` of them. -/
structure Shows (used : Nat) (words : Array UInt16) (slots : Array (Option Nat)) : Prop where
  size_eq : slots.size = used
  le_size : used ≤ words.size
  symbolIn_eq : ∀ k < used, words[k]?.map symbolIn = slots[k]?

variable {used : Nat} {words : Array UInt16} {slots slots' : Array (Option Nat)} {symbol k : Nat}

theorem getElem?_clear (h : used ≤ words.size) (hk : k < used) : (clear used words)[k]? = some 0 := by
  rw [clear, Array.getElem?_mapIdx, Array.getElem?_eq_getElem (by omega), Option.map_some, if_pos hk]

theorem shows_clear (h : used ≤ words.size) :
    Shows used (clear used words) (Array.replicate used none) where
  size_eq := Array.size_replicate
  le_size := by simpa [clear] using h
  symbolIn_eq k hk := by
    rw [getElem?_clear h hk, Array.getElem?_replicate, if_pos hk, Option.map_some, symbolIn_zero]

theorem Shows.fill (h : Shows used words slots)
    (hfill : LookupTable.fill (symbol % slotSymbols) slots k = some slots') :
    ∃ words', SlotStorage.fill symbol words k = some words' ∧ Shows used words' slots' := by
  unfold LookupTable.fill at hfill
  split at hfill
  · rename_i hk
    cases hfill
    rw [h.size_eq] at hk
    have hk' : k < words.size := Nat.lt_of_lt_of_le hk h.le_size
    refine ⟨_, if_pos hk', by simpa using h.size_eq, by simpa using h.le_size, fun i hi => ?_⟩
    rw [Array.getElem?_setIfInBounds, Array.getElem?_setIfInBounds, h.size_eq]
    by_cases hki : k = i
    · rw [if_pos hki, if_pos hki, if_pos hk, if_pos hk', Option.map_some, symbolIn_entry]
    · rw [if_neg hki, if_neg hki]
      exact h.symbolIn_eq i hi
  · cases hfill

theorem Shows.fillEmpty (h : Shows used words slots)
    (hfill : LookupTable.fillEmpty (symbol % slotSymbols) slots k = some slots') :
    ∃ words', SlotStorage.fillEmpty symbol words k = some words' ∧ Shows used words' slots' := by
  unfold LookupTable.fillEmpty at hfill
  cases hk : slots[k]? with
  | none => rw [hk] at hfill; cases hfill
  | some shown =>
    have hlt := (Array.getElem?_eq_some_iff.mp hk).1
    have hshown := h.symbolIn_eq k (h.size_eq ▸ hlt)
    rw [hk] at hfill hshown
    obtain ⟨word, hword, hsym⟩ := Option.map_eq_some_iff.mp hshown
    unfold SlotStorage.fillEmpty
    rw [hword]
    dsimp only
    cases shown with
    | none =>
      rw [if_pos ((symbolIn_eq_none_iff word).mp hsym)]
      exact h.fill hfill
    | some s =>
      cases hfill
      rw [if_neg fun hmark => by rw [(symbolIn_eq_none_iff word).mpr hmark] at hsym; cases hsym]
      exact ⟨words, rfl, h⟩

/-- What is shown stays so over a run of steps if each step keeps it. -/
theorem Shows.foldlM {α : Type} {f : Array (Option Nat) → α → Option (Array (Option Nat))}
    {g : Array UInt16 → α → Option (Array UInt16)} {xs : List α} (h : Shows used words slots)
    (hf : xs.foldlM f slots = some slots')
    (hstep : ∀ words slots slots' x, Shows used words slots → f slots x = some slots' →
      ∃ words', g words x = some words' ∧ Shows used words' slots') :
    ∃ words', xs.foldlM g words = some words' ∧ Shows used words' slots' := by
  induction xs generalizing words slots with
  | nil =>
    cases hf
    exact ⟨words, rfl, h⟩
  | cons x xs ih =>
    rw [List.foldlM_cons] at hf
    obtain ⟨slots₁, hx, hf⟩ := Option.bind_eq_some_iff.mp hf
    obtain ⟨words₁, hx', h₁⟩ := hstep words slots slots₁ x h hx
    obtain ⟨words', hxs, h'⟩ := ih h₁ hf
    exact ⟨words', by rw [List.foldlM_cons, hx']; exact hxs, h'⟩

theorem Shows.place {maxBits : Nat} {w : SizedWord} (h : Shows used words slots)
    (hplace : LookupTable.place maxBits slots w = some slots') :
    ∃ words', SlotStorage.place maxBits words w = some words' ∧ Shows used words' slots' := by
  unfold LookupTable.place at hplace
  unfold SlotStorage.place
  by_cases hlt : maxBits < w.length
  · simp [hlt] at hplace
  · simp only [hlt, if_false] at hplace ⊢
    obtain ⟨slots₁, hfill, hfold⟩ := Option.bind_eq_some_iff.mp hplace
    obtain ⟨words₁, hfill', h₁⟩ := h.fill hfill
    obtain ⟨words', hfold', h'⟩ :=
      h₁.foldlM hfold fun _ _ _ _ h hfill => h.fillEmpty hfill
    exact ⟨words', Option.bind_eq_some_iff.mpr ⟨words₁, hfill', hfold'⟩, h'⟩

/-- A lookup does not go past the slots that are in use. -/
theorem Shows.lookup_eq {maxBits capacity : Nat} (h : Shows (slotCount maxBits) words slots)
    (key : Nat) :
    lookup { slots := words, maxBits } key = LookupTable.lookup { capacity, maxBits, slots } key := by
  have hkey := h.symbolIn_eq (key % slotCount maxBits) (Nat.mod_lt _ (Nat.two_pow_pos _))
  rw [LookupTable.lookup, lookup, ← hkey]
  cases words[key % slotCount maxBits]? <;> rfl

/-! ## Builds -/

/-- A build keeps the words that placing the words of the code results in. -/
theorem build_of_placed {lens : Lengths} {book book' : CodeBook} {n : Nat} {ws : List SizedWord}
    {store : SlotStorage} {words : Array UInt16} (hassign : CodeBook.assign lens book = .ok n book')
    (hroom : slotCount n ≤ store.slots.size)
    (hsized : LookupTable.sized lens.toArray book' = some ws)
    (hplace : (LookupTable.longestFirst ws).foldlM (place n) (clear (slotCount n) store.slots) =
      some words) :
    build lens (store, book) =
      .ok n (⟨words, n⟩, (LookupTable.longestFirst ws).map SizedWord.word) := by
  rw [build, run_bind_ok (focus_snd_ok hassign), run_bind_ok run_get]
  simp only [Nat.not_lt.mpr hroom, if_false, hsized, hplace]
  rfl

/-- A build that succeeds on a table succeeds in storage with as much room, whatever it holds, and
afterwards both look up the same. -/
theorem build_of_build {lens : Lengths} {t t' : LookupTable} {book sorted : CodeBook} {n : Nat}
    (h : LookupTable.build lens (t, book) = .ok n (t', sorted)) (store : SlotStorage)
    (hroom : slotCount n ≤ store.slots.size) :
    ∃ store', build lens (store, book) = .ok n (store', sorted) ∧ store'.maxBits = t'.maxBits ∧
      store'.lookup = t'.lookup := by
  obtain ⟨book', sizedWords, slots, hassign, -, hsized, hplace, heq⟩ := LookupTable.build_inv h
  cases heq
  obtain ⟨words, hfold, hshows⟩ :=
    (shows_clear hroom).foldlM hplace fun _ _ _ _ h hplace => h.place hplace
  exact ⟨⟨words, n⟩, build_of_placed hassign hroom hsized hfold, rfl,
    funext fun key => hshows.lookup_eq key⟩

end SlotStorage
end DeflateHeader
