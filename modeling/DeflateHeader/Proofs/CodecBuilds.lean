import DeflateHeader.Codec
import DeflateHeader.Proofs.Lookup
import DeflateHeader.Proofs.SymbolCodes

/-!
# Builds within a codec

What a build on one alphabet does to the whole codec. A build that succeeds replaces one table of
its alphabet, which then serves the alphabet's lengths; beside that only the code book and the
remarks change (`building_buildLookup_ok`, `building_buildCodes_ok`). It succeeds only for feasible
lengths (`feasible_of_building_buildLookup`, `feasible_of_building_buildCodes`).

`Codec.Sized` says that every table has either no storage or the storage of its alphabet, and
`Codec.Ready` that it has the latter, as after `begin`. A build keeps both, also when it fails.
-/

namespace DeflateHeader

/-! ## One alphabet -/

namespace LookupTable

/-- Building never changes the storage. -/
theorem keeps_build (lens : Lengths) (capacity : Nat) :
    Keeps (fun s => s.1.capacity = capacity) (build lens) := by
  refine keeps_bind ?_ fun maxBits => keeps_get_bind fun s hs => ?_
  · refine keeps_focus (Q := fun _ => True) (fun _ _ => trivial) (fun _ _ => trivial) ?_
    intro s _ hs _
    exact hs
  · obtain ⟨table, book⟩ := s
    dsimp only
    split
    · exact hs
    · cases sized lens.toArray book with
      | none => exact hs
      | some words =>
        dsimp only
        cases placeAll maxBits (longestFirst words) <;> exact hs

end LookupTable

namespace CodeTable

@[simp] theorem length_codesFrom (symbol n : Nat) (book : CodeBook) :
    (codesFrom symbol n book).length = n := by
  induction n generalizing symbol book with
  | zero => rfl
  | succ n ih =>
    cases book with
    | nil => rw [codesFrom, List.length_cons, ih]
    | cons w ws => rw [codesFrom]; split <;> rw [List.length_cons, ih]

/-- Building never changes the number of symbols. -/
theorem keeps_build (lens : Lengths) (size : Nat) :
    Keeps (fun s => s.1.size = size) (build lens) := by
  refine keeps_bind ?_ fun maxBits => keeps_get_bind fun s hs => ?_
  · refine keeps_focus (Q := fun _ => True) (fun _ _ => trivial) (fun _ _ => trivial) ?_
    intro s _ hs _
    exact hs
  · show (codesFrom 0 s.1.size (bySymbol s.2)).toArray.size = size
    simpa using hs

end CodeTable

namespace Alphabet

variable {a : Alphabet} {book : CodeBook} {bits size : Nat}

theorem buildLookup_ok (book : CodeBook) (hf : a.lens.Feasible) (hn : a.lens.length ≤ slotSymbols)
    (hc : 2 ^ a.lens.maxLength ≤ a.lookup.capacity) :
    ∃ t book', buildLookup (a, book) = .ok a.lens.maxLength ({ a with lookup := t }, book') ∧
      t.Decodes a.lens ∧ t.capacity = a.lookup.capacity := by
  obtain ⟨t, book', hb, hd, hcap⟩ := LookupTable.build_ok book hf hn hc
  refine ⟨t, book', ?_, hd, hcap⟩
  rw [buildLookup, run_bind_ok run_get]
  simp only [focus, hb]

theorem buildCodes_ok (book : CodeBook) (hf : a.lens.Feasible) (hn : a.lens.length ≤ symbolRange) :
    ∃ t book', buildCodes (a, book) = .ok a.lens.maxLength ({ a with codes := t }, book') ∧
      t.Encodes a.lens ∧ t.size = a.codes.size := by
  obtain ⟨t, hb, he, hsize⟩ := CodeTable.build_ok a.codes book hf hn
  refine ⟨t, a.lens.words, ?_, he, hsize⟩
  rw [buildCodes, run_bind_ok run_get]
  simp only [focus, hb]

theorem feasible_of_buildLookup {n : Nat} {s : Alphabet × CodeBook}
    (h : buildLookup (a, book) = .ok n s) :
    a.lens.Feasible ∧ 2 ^ a.lens.maxLength ≤ a.lookup.capacity := by
  rw [buildLookup, run_bind_ok run_get] at h
  obtain ⟨t, ht, -⟩ := ok_of_focus h
  exact LookupTable.feasible_of_build ht

theorem feasible_of_buildCodes {n : Nat} {s : Alphabet × CodeBook}
    (h : buildCodes (a, book) = .ok n s) : a.lens.Feasible := by
  rw [buildCodes, run_bind_ok run_get] at h
  obtain ⟨t, ht, -⟩ := ok_of_focus h
  exact CodeTable.feasible_of_build ht

/-- Each table has no storage, or that for codes of up to `bits` bits and for `size` symbols. -/
structure Sized (bits size : Nat) (a : Alphabet) : Prop where
  capacity : a.lookup.capacity = 0 ∨ a.lookup.capacity = slotCount bits
  size : a.codes.size = 0 ∨ a.codes.size = size

/-- Both tables have their storage. -/
structure Ready (bits size : Nat) (a : Alphabet) : Prop where
  capacity : a.lookup.capacity = slotCount bits
  size : a.codes.size = size

theorem sized_empty : ({} : Alphabet).Sized bits size := ⟨.inl rfl, .inl rfl⟩

theorem Ready.sized (h : a.Ready bits size) : a.Sized bits size := ⟨.inr h.capacity, .inr h.size⟩

theorem Sized.reserve (h : a.Sized bits size) : (a.reserve bits size).Ready bits size where
  capacity := by
    simp only [Alphabet.reserve, LookupTable.isEmpty, beq_iff_eq]
    split
    · rfl
    · exact h.capacity.resolve_left ‹_›
  size := by
    have hempty : a.codes.isEmpty = true ↔ a.codes.size = 0 := by
      simp [CodeTable.isEmpty, CodeTable.size]
    simp only [Alphabet.reserve, hempty]
    split
    · simp [CodeTable.withSize, CodeTable.size]
    · exact h.size.resolve_left ‹_›

/-- Two alphabets with the same storage. -/
structure SameStorage (a b : Alphabet) : Prop where
  capacity_eq : b.lookup.capacity = a.lookup.capacity
  size_eq : b.codes.size = a.codes.size

/-- Two alphabets with the same storage and the same lengths: what a build looks at, and leaves. -/
structure SameShape (a b : Alphabet) : Prop extends a.SameStorage b where
  lens_eq : b.lens = a.lens

theorem SameStorage.refl (a : Alphabet) : a.SameStorage a := ⟨rfl, rfl⟩

theorem SameStorage.sized {a b : Alphabet} (h : a.SameStorage b) (ha : a.Sized bits size) :
    b.Sized bits size := by
  obtain ⟨hcap, hsize⟩ := h
  exact ⟨hcap ▸ ha.capacity, hsize ▸ ha.size⟩

theorem SameStorage.ready {a b : Alphabet} (h : a.SameStorage b) (ha : a.Ready bits size) :
    b.Ready bits size :=
  ⟨h.capacity_eq.trans ha.capacity, h.size_eq.trans ha.size⟩

theorem Ready.sameStorage {a b : Alphabet} (ha : a.Ready bits size) (hb : b.Ready bits size) :
    a.SameStorage b :=
  ⟨hb.capacity.trans ha.capacity.symm, hb.size.trans ha.size.symm⟩

theorem keeps_buildLookup (a : Alphabet) : Keeps (fun s => a.SameShape s.1) buildLookup := by
  refine keeps_get_bind fun s hs => ?_
  refine keeps_focus (P := fun s => a.SameShape s.1) ?_
    (LookupTable.keeps_build _ a.lookup.capacity) ?_ s hs
  · exact fun _ h => h.capacity_eq
  · exact fun _ _ h ht => ⟨⟨ht, h.size_eq⟩, h.lens_eq⟩

theorem keeps_buildCodes (a : Alphabet) : Keeps (fun s => a.SameShape s.1) buildCodes := by
  refine keeps_get_bind fun s hs => ?_
  refine keeps_focus (P := fun s => a.SameShape s.1) ?_
    (CodeTable.keeps_build _ a.codes.size) ?_ s hs
  · exact fun _ h => h.size_eq
  · exact fun _ _ h ht => ⟨⟨h.capacity_eq, ht⟩, h.lens_eq⟩

end Alphabet

/-! ## The codec -/

namespace Codec

variable {c : Codec} {α : Type}

theorem remark_ok (note : Note) (c : Codec) :
    remark note c = .ok () { c with notes := c.notes ++ [note] } := rfl

theorem remarkLengths_ok (lens : Lengths) (c : Codec) :
    ∃ notes, remarkLengths lens c = .ok () { c with notes } := by
  rw [remarkLengths]
  split
  · exact ⟨_, rfl⟩
  · exact ⟨c.notes, rfl⟩

section Building

variable {view : Codec → Alphabet} {put : Alphabet → Codec → Codec}
  {act : EStateM Error (Alphabet × CodeBook) α}

theorem building_ok (put : Alphabet → Codec → Codec) {a : α} {t : Alphabet × CodeBook}
    (hview : ∀ notes, view { c with notes } = view c) (h : act (view c, c.book) = .ok a t) :
    ∃ notes, building view put act c =
      .ok a { put t.1 { c with notes } with book := t.2 } := by
  obtain ⟨notes, hr⟩ := remarkLengths_ok (view c).lens c
  refine ⟨notes, ?_⟩
  unfold building
  rw [run_bind_ok run_get, run_bind_ok hr]
  simp only [focus, hview notes, h]

theorem ok_of_building {a : α} {c' : Codec} (hview : ∀ notes, view { c with notes } = view c)
    (h : building view put act c = .ok a c') :
    ∃ t notes, act (view c, c.book) = .ok a t ∧
      c' = { put t.1 { c with notes } with book := t.2 } := by
  obtain ⟨notes, hr⟩ := remarkLengths_ok (view c).lens c
  unfold building at h
  rw [run_bind_ok run_get, run_bind_ok hr] at h
  obtain ⟨t, ht, heq⟩ := ok_of_focus h
  rw [hview notes] at ht
  exact ⟨t, notes, ht, heq⟩

/-- A table for decoding that is built serves the lengths of its alphabet. -/
theorem building_buildLookup_ok (hview : ∀ notes, view { c with notes } = view c)
    (hf : (view c).lens.Feasible) (hn : (view c).lens.length ≤ slotSymbols)
    (hc : 2 ^ (view c).lens.maxLength ≤ (view c).lookup.capacity) :
    ∃ t book notes, building view put Alphabet.buildLookup c =
        .ok (view c).lens.maxLength
          { put { view c with lookup := t } { c with notes } with book } ∧
      t.Decodes (view c).lens ∧ t.capacity = (view c).lookup.capacity := by
  obtain ⟨t, book, hb, hd, hcap⟩ := Alphabet.buildLookup_ok c.book hf hn hc
  obtain ⟨notes, h⟩ := building_ok put hview hb
  exact ⟨t, book, notes, h, hd, hcap⟩

/-- A table for encoding that is built serves the lengths of its alphabet. -/
theorem building_buildCodes_ok (hview : ∀ notes, view { c with notes } = view c)
    (hf : (view c).lens.Feasible) (hn : (view c).lens.length ≤ symbolRange) :
    ∃ t book notes, building view put Alphabet.buildCodes c =
        .ok (view c).lens.maxLength
          { put { view c with codes := t } { c with notes } with book } ∧
      t.Encodes (view c).lens ∧ t.size = (view c).codes.size := by
  obtain ⟨t, book, hb, he, hsize⟩ := Alphabet.buildCodes_ok c.book hf hn
  obtain ⟨notes, h⟩ := building_ok put hview hb
  exact ⟨t, book, notes, h, he, hsize⟩

theorem feasible_of_building_buildLookup {n : Nat} {c' : Codec}
    (hview : ∀ notes, view { c with notes } = view c)
    (h : building view put Alphabet.buildLookup c = .ok n c') :
    (view c).lens.Feasible ∧ 2 ^ (view c).lens.maxLength ≤ (view c).lookup.capacity := by
  obtain ⟨t, -, ht, -⟩ := ok_of_building hview h
  exact Alphabet.feasible_of_buildLookup ht

theorem feasible_of_building_buildCodes {n : Nat} {c' : Codec}
    (hview : ∀ notes, view { c with notes } = view c)
    (h : building view put Alphabet.buildCodes c = .ok n c') : (view c).lens.Feasible := by
  obtain ⟨t, -, ht, -⟩ := ok_of_building hview h
  exact Alphabet.feasible_of_buildCodes ht

/-- What a build leaves, whatever its outcome. -/
theorem finalState_building (hview : ∀ notes, view { c with notes } = view c) :
    ∃ notes, finalState (building view put act c) =
      { put (finalState (act (view c, c.book))).1 { c with notes } with
        book := (finalState (act (view c, c.book))).2 } := by
  obtain ⟨notes, hr⟩ := remarkLengths_ok (view c).lens c
  refine ⟨notes, ?_⟩
  unfold building
  rw [run_bind_ok run_get, run_bind_ok hr]
  simp only [focus, hview notes]
  cases act (view c, c.book) <;> rfl

end Building

/-! ## Builds on each alphabet -/

theorem onCodeLength_buildLookup_ok (hf : c.codeLength.lens.Feasible) (hn : c.codeLength.lens.length ≤ slotSymbols)
    (hc : 2 ^ c.codeLength.lens.maxLength ≤ c.codeLength.lookup.capacity) :
    ∃ t book notes, onCodeLength Alphabet.buildLookup c =
        .ok c.codeLength.lens.maxLength { c with codeLength := { c.codeLength with lookup := t }, book, notes } ∧
      t.Decodes c.codeLength.lens ∧ t.capacity = c.codeLength.lookup.capacity :=
  building_buildLookup_ok (fun _ => rfl) hf hn hc

theorem onLitLen_buildLookup_ok (hf : c.litLen.lens.Feasible) (hn : c.litLen.lens.length ≤ slotSymbols)
    (hc : 2 ^ c.litLen.lens.maxLength ≤ c.litLen.lookup.capacity) :
    ∃ t book notes, onLitLen Alphabet.buildLookup c =
        .ok c.litLen.lens.maxLength { c with litLen := { c.litLen with lookup := t }, book, notes } ∧
      t.Decodes c.litLen.lens ∧ t.capacity = c.litLen.lookup.capacity :=
  building_buildLookup_ok (fun _ => rfl) hf hn hc

theorem onDistance_buildLookup_ok (hf : c.distance.lens.Feasible) (hn : c.distance.lens.length ≤ slotSymbols)
    (hc : 2 ^ c.distance.lens.maxLength ≤ c.distance.lookup.capacity) :
    ∃ t book notes, onDistance Alphabet.buildLookup c =
        .ok c.distance.lens.maxLength { c with distance := { c.distance with lookup := t }, book, notes } ∧
      t.Decodes c.distance.lens ∧ t.capacity = c.distance.lookup.capacity :=
  building_buildLookup_ok (fun _ => rfl) hf hn hc

theorem onCodeLength_buildCodes_ok (hf : c.codeLength.lens.Feasible) (hn : c.codeLength.lens.length ≤ symbolRange) :
    ∃ t book notes, onCodeLength Alphabet.buildCodes c =
        .ok c.codeLength.lens.maxLength { c with codeLength := { c.codeLength with codes := t }, book, notes } ∧
      t.Encodes c.codeLength.lens ∧ t.size = c.codeLength.codes.size :=
  building_buildCodes_ok (fun _ => rfl) hf hn

theorem onLitLen_buildCodes_ok (hf : c.litLen.lens.Feasible) (hn : c.litLen.lens.length ≤ symbolRange) :
    ∃ t book notes, onLitLen Alphabet.buildCodes c =
        .ok c.litLen.lens.maxLength { c with litLen := { c.litLen with codes := t }, book, notes } ∧
      t.Encodes c.litLen.lens ∧ t.size = c.litLen.codes.size :=
  building_buildCodes_ok (fun _ => rfl) hf hn

theorem onDistance_buildCodes_ok (hf : c.distance.lens.Feasible) (hn : c.distance.lens.length ≤ symbolRange) :
    ∃ t book notes, onDistance Alphabet.buildCodes c =
        .ok c.distance.lens.maxLength { c with distance := { c.distance with codes := t }, book, notes } ∧
      t.Encodes c.distance.lens ∧ t.size = c.distance.codes.size :=
  building_buildCodes_ok (fun _ => rfl) hf hn

/-! ## Lengths -/

/-- The codec with other lengths of the code-length alphabet. -/
def withCode (c : Codec) (lens : Lengths) : Codec :=
  { c with codeLength := { c.codeLength with lens } }

/-- The codec with other lengths of the literal/length alphabet. -/
def withLitLen (c : Codec) (lens : Lengths) : Codec := { c with litLen := { c.litLen with lens } }

/-- The codec with other lengths of the two main alphabets. -/
def withLengths (c : Codec) (litLen distance : Lengths) : Codec :=
  { c with
    litLen := { c.litLen with lens := litLen }
    distance := { c.distance with lens := distance } }

theorem setCodeLength_ok {symbol : Nat} (len : UInt8) (h : symbol < c.codeLength.lens.length) :
    setCodeLength symbol len c = .ok () (c.withCode (c.codeLength.lens.set symbol len)) := by
  unfold setCodeLength
  rw [run_bind_ok run_get, if_neg (Nat.not_le.mpr h)]
  rfl

theorem clearCodeLengths_ok (h : c.codeLength.lens.length = codeLengthCount) :
    clearCodeLengths c = .ok () (c.withCode (List.replicate codeLengthCount 0)) := by
  rw [← h, ← List.map_const']
  rfl

theorem splitLengths_ok {n : Nat} {lens : Lengths} (h : n ≤ lens.length) :
    splitLengths n (c.withLitLen lens) = .ok () (c.withLengths (lens.take n) (lens.drop n)) := by
  have hlens : (c.withLitLen lens).litLen.lens = lens := rfl
  unfold splitLengths
  rw [run_bind_ok run_get, hlens, if_neg (Nat.not_lt.mpr h)]
  rfl

/-! ## Storage -/

/-- Every table has no storage or that of its alphabet. -/
structure Sized (c : Codec) : Prop where
  codeLength : c.codeLength.Sized maxCodeLengthBits codeLengthCount
  litLen : c.litLen.Sized maxCodeBits fixedLitLenCount
  distance : c.distance.Sized maxCodeBits maxDistanceCount

/-- Every table has the storage of its alphabet, and the code-length alphabet its lengths. -/
structure Ready (c : Codec) : Prop where
  codeLength : c.codeLength.Ready maxCodeLengthBits codeLengthCount
  litLen : c.litLen.Ready maxCodeBits fixedLitLenCount
  distance : c.distance.Ready maxCodeBits maxDistanceCount
  length_codeLength : c.codeLength.lens.length = codeLengthCount

theorem Ready.sized (h : c.Ready) : c.Sized := ⟨h.codeLength.sized, h.litLen.sized, h.distance.sized⟩

theorem Ready.with_notes (h : c.Ready) (notes : List Note) : { c with notes }.Ready :=
  ⟨h.codeLength, h.litLen, h.distance, h.length_codeLength⟩

theorem Ready.withCode (h : c.Ready) {lens : Lengths} (hlen : lens.length = codeLengthCount) :
    (c.withCode lens).Ready :=
  ⟨⟨h.codeLength.capacity, h.codeLength.size⟩, h.litLen, h.distance, hlen⟩

theorem sized_new : new.Sized :=
  ⟨Alphabet.sized_empty, Alphabet.sized_empty, Alphabet.sized_empty⟩

theorem Sized.reset (c : Codec) : c.reset.Sized :=
  ⟨Alphabet.sized_empty, Alphabet.sized_empty, Alphabet.sized_empty⟩

theorem Sized.reserve (h : c.Sized) : c.reserve.Ready := by
  have hr := h.codeLength.reserve
  refine ⟨?_, h.litLen.reserve, h.distance.reserve, ?_⟩
  · simp only [Codec.reserve]
    split
    · exact hr
    · exact ⟨hr.capacity, hr.size⟩
  · simp only [Codec.reserve]
    split
    · assumption
    · exact List.length_replicate

/-- A build begins with no tables loaded and all storage there. -/
theorem begin_ok (h : c.Sized) : ∃ c', begin c = .ok () c' ∧ c'.Ready ∧ c'.loaded = none :=
  ⟨_, rfl, Sized.reserve (c := { c with loaded := none }) ⟨h.codeLength, h.litLen, h.distance⟩, rfl⟩

/-! ## The two main alphabets -/

variable {litLen distance : Lengths}

/-- Feasible lengths fit the tables of the main alphabets. -/
theorem two_pow_maxLength_le {lens : Lengths} (h : lens.Feasible) :
    2 ^ lens.maxLength ≤ slotCount maxCodeBits :=
  Nat.pow_le_pow_right (by decide) h.maxLength_le

theorem buildLookups_ok (hc : c.Ready) (hl : litLen.Feasible) (hd : distance.Feasible)
    (hl' : litLen.length ≤ slotSymbols) (hd' : distance.length ≤ slotSymbols) :
    ∃ n m c₁ c₂, onLitLen Alphabet.buildLookup (c.withLengths litLen distance) = .ok n c₁ ∧
      onDistance Alphabet.buildLookup c₁ = .ok m c₂ ∧ c₂.codeLength = c.codeLength ∧
      c₂.litLen.lens = litLen ∧ c₂.distance.lens = distance ∧
      c₂.litLen.lookup.Decodes litLen ∧ c₂.distance.lookup.Decodes distance := by
  obtain ⟨t, book, notes, h, ht, -⟩ :=
    onLitLen_buildLookup_ok (c := c.withLengths litLen distance) hl hl'
      (hc.litLen.capacity ▸ two_pow_maxLength_le hl)
  obtain ⟨t', book', notes', h', ht', -⟩ :=
    onDistance_buildLookup_ok
      (c := { c.withLengths litLen distance with
        litLen := { (c.withLengths litLen distance).litLen with lookup := t }, book, notes })
      hd hd' (hc.distance.capacity ▸ two_pow_maxLength_le hd)
  exact ⟨_, _, _, _, h, h', rfl, rfl, rfl, ht, ht'⟩

theorem feasible_of_buildLookups {n m : Nat} {c₁ c₂ : Codec}
    (h₁ : onLitLen Alphabet.buildLookup (c.withLengths litLen distance) = .ok n c₁)
    (h₂ : onDistance Alphabet.buildLookup c₁ = .ok m c₂) : litLen.Feasible ∧ distance.Feasible := by
  obtain ⟨t, notes, ht, rfl⟩ := ok_of_building (fun _ => rfl) h₁
  exact ⟨(Alphabet.feasible_of_buildLookup ht).1,
    (feasible_of_building_buildLookup (fun _ => rfl) h₂).1⟩

theorem feasible_of_buildCodes {n m : Nat} {c₁ c₂ : Codec}
    (h₁ : onLitLen Alphabet.buildCodes (c.withLengths litLen distance) = .ok n c₁)
    (h₂ : onDistance Alphabet.buildCodes c₁ = .ok m c₂) : litLen.Feasible ∧ distance.Feasible := by
  obtain ⟨t, notes, ht, rfl⟩ := ok_of_building (fun _ => rfl) h₁
  exact ⟨Alphabet.feasible_of_buildCodes ht, feasible_of_building_buildCodes (fun _ => rfl) h₂⟩

theorem buildCodes_ok (hc : c.Ready) (hl : litLen.Feasible) (hd : distance.Feasible)
    (hl' : litLen.length ≤ symbolRange) (hd' : distance.length ≤ symbolRange) :
    ∃ n m c₁ c₂, onLitLen Alphabet.buildCodes (c.withLengths litLen distance) = .ok n c₁ ∧
      onDistance Alphabet.buildCodes c₁ = .ok m c₂ ∧ c₂.codeLength = c.codeLength ∧
      c₂.litLen.lens = litLen ∧ c₂.distance.lens = distance ∧
      c₂.litLen.codes.Encodes litLen ∧ c₂.distance.codes.Encodes distance ∧
      c₂.litLen.codes.size = fixedLitLenCount ∧ c₂.distance.codes.size = maxDistanceCount := by
  obtain ⟨t, book, notes, h, ht, hs⟩ :=
    onLitLen_buildCodes_ok (c := c.withLengths litLen distance) hl hl'
  obtain ⟨t', book', notes', h', ht', hs'⟩ :=
    onDistance_buildCodes_ok
      (c := { c.withLengths litLen distance with
        litLen := { (c.withLengths litLen distance).litLen with codes := t }, book, notes }) hd hd'
  exact ⟨_, _, _, _, h, h', rfl, rfl, rfl, ht, ht', hs.trans hc.litLen.size,
    hs'.trans hc.distance.size⟩

/-! ## Steps that keep the storage -/

/-- `d` has the storage of `c` and the same loaded tables, whatever else a build has changed. -/
structure SameStorage (c d : Codec) : Prop where
  codeLength : c.codeLength.SameStorage d.codeLength
  litLen : c.litLen.SameStorage d.litLen
  distance : c.distance.SameStorage d.distance
  length_codeLength : d.codeLength.lens.length = c.codeLength.lens.length
  loaded_eq : d.loaded = c.loaded

/-- A property that depends on the storage and on the loaded tables only. -/
def OfStorage (P : Codec → Prop) : Prop := ∀ c d : Codec, P c → c.SameStorage d → P d

theorem sized_ofStorage : OfStorage Sized := fun _ _ hc h =>
  ⟨h.codeLength.sized hc.codeLength, h.litLen.sized hc.litLen, h.distance.sized hc.distance⟩

section Steps

variable {P : Codec → Prop} {act : EStateM Error (Alphabet × CodeBook) α} (hP : OfStorage P)

include hP

theorem keeps_remark (note : Note) : Keeps P (remark note) :=
  keeps_modify fun _ h => hP _ _ h ⟨.refl _, .refl _, .refl _, rfl, rfl⟩

theorem keeps_building {view : Codec → Alphabet} {put : Alphabet → Codec → Codec}
    (hview : ∀ (c : Codec) (notes : List Note), view { c with notes } = view c)
    (hput : ∀ (c : Codec) (a : Alphabet) (book : CodeBook) (notes : List Note), (view c).SameShape a →
      c.SameStorage { put a { c with notes } with book })
    (h : ∀ a : Alphabet, Keeps (fun s => a.SameShape s.1) act) : Keeps P (building view put act) := by
  intro c hc
  obtain ⟨notes, heq⟩ := finalState_building (hview c)
  rw [heq]
  exact hP _ _ hc (hput c _ _ notes (h (view c) (view c, c.book) ⟨.refl _, rfl⟩))

theorem keeps_onCodeLength (h : ∀ a : Alphabet, Keeps (fun s => a.SameShape s.1) act) :
    Keeps P (onCodeLength act) := by
  refine keeps_building hP (fun _ _ => rfl) (fun c a book notes ha => ?_) h
  exact ⟨ha.toSameStorage, .refl _, .refl _, congrArg List.length ha.lens_eq, rfl⟩

theorem keeps_onLitLen (h : ∀ a : Alphabet, Keeps (fun s => a.SameShape s.1) act) :
    Keeps P (onLitLen act) := by
  refine keeps_building hP (fun _ _ => rfl) (fun c a book notes ha => ?_) h
  exact ⟨.refl _, ha.toSameStorage, .refl _, rfl, rfl⟩

theorem keeps_onDistance (h : ∀ a : Alphabet, Keeps (fun s => a.SameShape s.1) act) :
    Keeps P (onDistance act) := by
  refine keeps_building hP (fun _ _ => rfl) (fun c a book notes ha => ?_) h
  exact ⟨.refl _, .refl _, ha.toSameStorage, rfl, rfl⟩

theorem keeps_setCodeLength (symbol : Nat) (len : UInt8) : Keeps P (setCodeLength symbol len) := by
  refine keeps_get_bind fun c hc => ?_
  by_cases hle : c.codeLength.lens.length ≤ symbol
  · rw [if_pos hle]
    exact hc
  · rw [if_neg hle]
    exact hP _ _ hc ⟨⟨rfl, rfl⟩, .refl _, .refl _, List.length_set, rfl⟩

theorem keeps_clearCodeLengths : Keeps P clearCodeLengths :=
  keeps_modify fun _ hc => hP _ _ hc ⟨⟨rfl, rfl⟩, .refl _, .refl _, List.length_map _, rfl⟩

theorem keeps_splitLengths (n : Nat) : Keeps P (splitLengths n) := by
  refine keeps_get_bind fun c hc => ?_
  by_cases hlt : c.litLen.lens.length < n
  · rw [if_pos hlt]
    exact hc
  · rw [if_neg hlt]
    exact hP _ _ hc ⟨.refl _, ⟨rfl, rfl⟩, ⟨rfl, rfl⟩, rfl, rfl⟩

end Steps

theorem keeps_begin : Keeps Sized begin := fun c h => by
  obtain ⟨c', hb, hr, -⟩ := begin_ok h
  rw [hb]
  exact hr.sized

theorem keeps_finish (set : TableSet) : Keeps Sized (finish set) :=
  keeps_modify fun _ h => ⟨h.codeLength, h.litLen, h.distance⟩

theorem Sized.withLengths (h : c.Sized) (litLen distance : Lengths) :
    (c.withLengths litLen distance).Sized :=
  sized_ofStorage _ _ h ⟨.refl _, ⟨rfl, rfl⟩, ⟨rfl, rfl⟩, rfl, rfl⟩

theorem Sized.withLitLen (h : c.Sized) (lens : Lengths) : (c.withLitLen lens).Sized :=
  sized_ofStorage _ _ h ⟨.refl _, ⟨rfl, rfl⟩, .refl _, rfl, rfl⟩

theorem keeps_buildFixed : Keeps Sized buildFixed := by
  refine keeps_get_bind fun c hc => ?_
  by_cases hfix : c.loaded = some .fixed
  · rw [if_pos hfix]
    exact hc
  rw [if_neg hfix]
  refine keeps_bind keeps_begin (fun _ => ?_) c hc
  refine keeps_bind (keeps_modify fun _ h => h.withLengths _ _) fun _ => ?_
  have hP := sized_ofStorage
  refine keeps_bind (keeps_onLitLen hP Alphabet.keeps_buildLookup) fun _ => ?_
  refine keeps_bind (keeps_onDistance hP Alphabet.keeps_buildLookup) fun _ => ?_
  refine keeps_bind (keeps_discard (keeps_onLitLen hP Alphabet.keeps_buildCodes)) fun _ => ?_
  refine keeps_bind (keeps_discard (keeps_onDistance hP Alphabet.keeps_buildCodes)) fun _ => ?_
  exact keeps_bind (keeps_remark hP _) fun _ => keeps_finish _

end Codec
end DeflateHeader
