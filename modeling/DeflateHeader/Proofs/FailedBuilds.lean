import DeflateHeader.Proofs.SlotStorage
import DeflateHeader.Proofs.SymbolCodes

/-!
# What a build that fails leaves behind

A build rewrites two things, a table and the list of code words that all tables share. Lengths that are
not accepted touch neither. A lookup table has one more reason to fail, too few slots for the longest
code, which is noticed between the two: the list has the new words then, in the order of their symbols
and not yet sorted, and the table is as it was.

`FailedBuild` lists these two failures. That there is no third one, for lengths in any number, needs that
every word of an accepted code finds its slots (`foldlM_place_of_inside`). A word need not have its slots
for itself: of more than 65536 symbols some share a number, and words of theirs are placed with the
length of another symbol.
-/

namespace DeflateHeader

open Lengths

namespace LookupTable

variable {maxBits : Nat} {slots : Array (Option Nat)} {w : SizedWord} {ws : List SizedWord}
  {lens : Lengths}

/-! ## Placing words that may overlap -/

/-- Words are placed in any table with room for them, whatever is in their slots. -/
theorem foldlM_place_of_inside (h : ∀ w ∈ ws, Inside maxBits w)
    (hsize : slots.size = slotCount maxBits) : ∃ slots', ws.foldlM (place maxBits) slots = some slots' := by
  induction ws generalizing slots with
  | nil => exact ⟨slots, rfl⟩
  | cons w ws ih =>
    obtain ⟨slots₁, hplace, hsize₁, -⟩ := (h w (by simp)).place hsize
    obtain ⟨slots', hfold⟩ := ih (fun w' hw' => h w' (by simp [hw'])) hsize₁
    exact ⟨slots', by simp [hplace, hfold]⟩

theorem mem_of_mem_longestFirst (h : w ∈ longestFirst ws) : w ∈ ws := by
  obtain ⟨l, -, hw⟩ := List.mem_flatMap.mp h
  exact List.mem_of_mem_filter hw

theorem inside_of_mem_sizedWords (hw : w ∈ sizedWords lens) : Inside lens.maxLength w := by
  obtain ⟨word, hword, rfl⟩ := List.mem_map.mp hw
  exact ⟨lengthOf_le_maxLength lens _, code_lt_of_mem_words hword⟩

/-- A table with enough slots is built from any lengths that are accepted. -/
theorem build_of_room {t : LookupTable} {book words : CodeBook} {n : Nat}
    (hassign : CodeBook.assign lens book = .ok n words) (hroom : slotCount n ≤ t.capacity) :
    ∃ t' sorted, build lens (t, book) = .ok n (t', sorted) := by
  obtain ⟨hf, rfl, -⟩ := CodeBook.assign_inv hassign
  have hinside : ∀ w ∈ longestFirst (sizedWords lens), Inside lens.maxLength w := fun w hw =>
    inside_of_mem_sizedWords (mem_of_mem_longestFirst hw)
  obtain ⟨slots, hplace⟩ := foldlM_place_of_inside hinside Array.size_replicate
  exact ⟨_, _, build_of_placed book hf hroom hplace⟩

end LookupTable

/-! ## Failures -/

/-- The ways in which the build of a lookup table with so many slots may fail, each with the error and
the table and the list of code words afterwards. -/
inductive FailedBuild {τ : Type} (slots : Nat) (lens : Lengths) (t : τ) (book : CodeBook) :
    Error → τ × CodeBook → Prop
  /-- The lengths are not accepted. -/
  | rejected {e : Error} (h : CodeBook.assign lens book = .error e book) :
    FailedBuild slots lens t book e (t, book)
  /-- The lengths are accepted, and their longest code is too long for the table. -/
  | tooLong {n : Nat} {words : CodeBook} (h : CodeBook.assign lens book = .ok n words)
    (hslots : slots < slotCount n) :
    FailedBuild slots lens t book (.invalid (.codeLengthTooLong n)) (t, words)

section Verdict

variable {lens : Lengths} {book : CodeBook}

/-- Lengths that are rejected leave the list as it was. -/
theorem CodeBook.eq_of_assign_error {e : Error} {book' : CodeBook}
    (h : assign lens book = .error e book') : book' = book := by
  by_cases hf : lens.Feasible
  · rw [assign_ok hf] at h
    cases h
  · obtain ⟨detail, hassign⟩ := assign_error hf book
    rw [hassign] at h
    cases h
    rfl

theorem CodeTable.eq_of_build_error {t : CodeTable} {e : Error} {s : CodeTable × CodeBook}
    (h : build lens (t, book) = .error e s) : s = (t, book) := by
  cases hassign : CodeBook.assign lens book with
  | ok n words =>
    rw [build, run_bind_ok (focus_snd_ok hassign)] at h
    cases h
  | error e' book' =>
    cases CodeBook.eq_of_assign_error hassign
    rw [build, run_bind_error (focus_snd_error hassign)] at h
    cases h
    rfl

/-- A build fails in the two ways that are listed if rejected lengths and too few slots make it fail in
this way, and nothing else makes it fail. -/
theorem failedBuild_iff {τ : Type} {slots : Nat} {t : τ}
    {result : EStateM.Result Error (τ × CodeBook) Nat}
    (hrejected : ∀ e, CodeBook.assign lens book = .error e book → result = .error e (t, book))
    (htooLong : ∀ n words, CodeBook.assign lens book = .ok n words → slots < slotCount n →
      result = .error (.invalid (.codeLengthTooLong n)) (t, words))
    (hbuilt : ∀ n words, CodeBook.assign lens book = .ok n words → slotCount n ≤ slots →
      ∃ s, result = .ok n s) (e : Error) (s : τ × CodeBook) :
    result = .error e s ↔ FailedBuild slots lens t book e s := by
  constructor
  · intro hresult
    cases hassign : CodeBook.assign lens book with
    | error e' book' =>
      cases CodeBook.eq_of_assign_error hassign
      cases (hrejected e' hassign).symm.trans hresult
      exact .rejected hassign
    | ok n words =>
      by_cases hslots : slots < slotCount n
      · cases (htooLong n words hassign hslots).symm.trans hresult
        exact .tooLong hassign hslots
      · obtain ⟨s', hok⟩ := hbuilt n words hassign (Nat.le_of_not_lt hslots)
        cases hok.symm.trans hresult
  · rintro (hassign | ⟨hassign, hslots⟩)
    · exact hrejected _ hassign
    · exact htooLong _ _ hassign hslots

theorem LookupTable.build_error_iff (t : LookupTable) (e : Error) (s : LookupTable × CodeBook) :
    build lens (t, book) = .error e s ↔ FailedBuild t.capacity lens t book e s := by
  refine failedBuild_iff (fun e => build_rejected) (fun n words => build_tooLong)
    (fun n words hassign hroom => ?_) e s
  obtain ⟨t', sorted, hbuild⟩ := build_of_room hassign hroom
  exact ⟨_, hbuild⟩

theorem SlotStorage.build_error_iff (store : SlotStorage) (e : Error) (s : SlotStorage × CodeBook) :
    build lens (store, book) = .error e s ↔ FailedBuild store.slots.size lens store book e s := by
  refine failedBuild_iff (fun e hassign => ?_) (fun n words hassign hslots => ?_)
    (fun n words hassign hroom => ?_) e s
  · rw [build, run_bind_error (focus_snd_error hassign)]
  · rw [build, run_bind_ok (focus_snd_ok hassign), run_bind_ok run_get]
    simp only [hslots, if_true]
    rfl
  · obtain ⟨t', sorted, hbuild⟩ :=
      LookupTable.build_of_room (t := { capacity := store.slots.size }) hassign hroom
    obtain ⟨store', hbuild', -⟩ := build_of_build hbuild store hroom
    exact ⟨_, hbuild'⟩

end Verdict

/-- Whatever was built before, lengths that are rejected leave the list of code words as it was, and so
does a code table that is not built, which keeps its codes too. A lookup table that is not built finds
what it found before, with the same lookahead, as does its storage. The list only changes if the
lengths are accepted and the longest code has more keys than there are slots, for which a table without
storage is always too small; it has the new words then, in the order of their symbols. -/
theorem failed_builds (lens : Lengths) (book : CodeBook) :
    (∀ e book', CodeBook.assign lens book = .error e book' → book' = book) ∧
    (∀ (t : CodeTable) e s, CodeTable.build lens (t, book) = .error e s → s = (t, book)) ∧
    (∀ (t : LookupTable) e s, LookupTable.build lens (t, book) = .error e s ↔
      FailedBuild t.capacity lens t book e s) ∧
    (∀ (store : SlotStorage) e s, SlotStorage.build lens (store, book) = .error e s ↔
      FailedBuild store.slots.size lens store book e s) ∧
    ∀ n words, CodeBook.assign lens book = .ok n words →
      n ≤ maxCodeBits ∧
      words.map CodeWord.symbol =
        ((List.range lens.length).filter fun s => lens.lengthOf s ≠ 0).map (· % symbolRange) ∧
      (∀ t : LookupTable, t.isEmpty →
        LookupTable.build lens (t, book) = .error (.invalid (.codeLengthTooLong n)) (t, words)) ∧
      (∀ store : SlotStorage, store.slots.isEmpty →
        SlotStorage.build lens (store, book) =
          .error (.invalid (.codeLengthTooLong n)) (store, words)) := by
  refine ⟨fun e book' => CodeBook.eq_of_assign_error, fun t e s => CodeTable.eq_of_build_error,
    LookupTable.build_error_iff, SlotStorage.build_error_iff, fun n words hassign => ?_⟩
  have hpos : 0 < slotCount n := Nat.two_pow_pos n
  refine ⟨?_, ?_, fun t ht => ?_, fun store hstore => ?_⟩
  · obtain ⟨hf, rfl, -⟩ := CodeBook.assign_inv hassign
    exact hf.maxLength_le
  · obtain ⟨-, -, rfl⟩ := CodeBook.assign_inv hassign
    exact map_symbol_words lens
  · have hcapacity : t.capacity = 0 := beq_iff_eq.mp ht
    exact LookupTable.build_tooLong hassign (hcapacity ▸ hpos)
  · have hsize : store.slots.size = 0 := Array.isEmpty_iff_size_eq_zero.mp hstore
    exact (SlotStorage.build_error_iff store _ _).mpr (.tooLong hassign (hsize ▸ hpos))

/-- Storage of two slots, in use for a code of two symbols: a longer code leaves its words and nothing
else, a code that is no code nothing at all. -/
theorem failed_builds_two_slots :
    let store : SlotStorage := ⟨#[0x8000, 0x8001], 1⟩
    SlotStorage.build [2, 0, 3] (store, [⟨1, 1⟩, ⟨0, 0⟩]) =
      .error (.invalid (.codeLengthTooLong 3)) (store, [⟨0, 0⟩, ⟨2, 2⟩]) ∧
    SlotStorage.build [1, 1, 1] (store, [⟨0, 0⟩, ⟨2, 2⟩]) =
      .error (.invalid (.oversubscribed 1 3)) (store, [⟨0, 0⟩, ⟨2, 2⟩]) := by
  intro store
  have hwords : Lengths.words [2, 0, 3] = [⟨0, 0⟩, ⟨2, 2⟩] := by decide +kernel
  have hf : Feasible [2, 0, 3] := by decide
  have haccept := CodeBook.assign_ok hf [⟨1, 1⟩, ⟨0, 0⟩]
  rw [hwords] at haccept
  obtain ⟨-, -, -, hstore, -⟩ := failed_builds [2, 0, 3] [⟨1, 1⟩, ⟨0, 0⟩]
  obtain ⟨-, -, -, hstore', -⟩ := failed_builds [1, 1, 1] [⟨0, 0⟩, ⟨2, 2⟩]
  exact ⟨(hstore store _ _).mpr (.tooLong haccept (by decide)),
    (hstore' store _ _).mpr (.rejected (by rfl))⟩

end DeflateHeader
