import DeflateHeader.Proofs.AlphabetAnswers
import DeflateHeader.Proofs.HeaderPairs
import DeflateHeader.Proofs.ReachableCodecs
import DeflateHeader.Proofs.TokenLengths

/-!
# The accessors of every reachable codec

A build writes five containers one after the other and can fail between any two of them, and the tables
of the other direction stay as an earlier build left them. `Codec.Coherent` is what `loaded` promises
all the same: tables that are loaded have their storage and belong to the lengths that the codec holds.
It holds in every reachable state (`Codec.Reachable.coherent`). An operation that fails has cleared
`loaded` before it touched anything else. One that succeeds has built its tables from the lengths that
are there at the end, and never from more lengths than a table can hold. The invariant asks for nothing
but storage before the operation, so what earlier operations left behind does not matter.

`Codec.answers_of_reachable` says what the accessors make of it.
-/

namespace DeflateHeader

/-! ## Builds that succeed -/

namespace Alphabet

variable {a : Alphabet} {book : CodeBook} {n : Nat} {s : Alphabet × CodeBook}

theorem buildLookup_inv (hn : a.lens.length ≤ slotSymbols) (h : buildLookup (a, book) = .ok n s) :
    ∃ t, s.1 = { a with lookup := t } ∧ t.Decodes a.lens := by
  rw [buildLookup, run_bind_ok run_get] at h
  obtain ⟨⟨t, book'⟩, ht, rfl⟩ := ok_of_focus h
  exact ⟨t, rfl, (LookupTable.decodes_of_build hn ht).2.2⟩

theorem buildCodes_inv (hn : a.lens.length ≤ symbolRange) (h : buildCodes (a, book) = .ok n s) :
    ∃ t, s.1 = { a with codes := t } ∧ t.Encodes a.lens := by
  rw [buildCodes, run_bind_ok run_get] at h
  obtain ⟨⟨t, book'⟩, ht, rfl⟩ := ok_of_focus h
  exact ⟨t, rfl, (CodeTable.encodes_of_build hn ht).2.1⟩

end Alphabet

namespace Codec

/-- The tables for decoding are those for the lengths. -/
def Decodes (c : Codec) : Prop :=
  c.litLen.lookup.Decodes c.litLen.lens ∧ c.distance.lookup.Decodes c.distance.lens

/-- The tables for encoding are those for the lengths. -/
def Encodes (c : Codec) : Prop :=
  c.litLen.codes.Encodes c.litLen.lens ∧ c.distance.codes.Encodes c.distance.lens

variable {c c₁ c₂ : Codec} {n m k : Nat}

theorem splitLengths_inv (h : splitLengths k c = .ok () c₁) :
    c₁ = c.withLengths (c.litLen.lens.take k) (c.litLen.lens.drop k) := by
  unfold splitLengths at h
  rw [run_bind_ok run_get] at h
  by_cases hlt : c.litLen.lens.length < k
  · rw [if_pos hlt] at h
    cases h
  · rw [if_neg hlt] at h
    cases h
    rfl

theorem decodes_of_buildLookups (hl : c.litLen.lens.length ≤ slotSymbols)
    (hd : c.distance.lens.length ≤ slotSymbols) (h₁ : onLitLen Alphabet.buildLookup c = .ok n c₁)
    (h₂ : onDistance Alphabet.buildLookup c₁ = .ok m c₂) : c₂.Decodes := by
  obtain ⟨⟨a, book⟩, notes, hb₁, rfl⟩ := ok_of_building (fun _ => rfl) h₁
  obtain ⟨⟨a', book'⟩, notes', hb₂, rfl⟩ := ok_of_building (fun _ => rfl) h₂
  obtain ⟨t, rfl, ht⟩ := Alphabet.buildLookup_inv hl hb₁
  obtain ⟨t', rfl, ht'⟩ := Alphabet.buildLookup_inv hd hb₂
  exact ⟨ht, ht'⟩

theorem encodes_of_buildCodes (hl : c.litLen.lens.length ≤ symbolRange)
    (hd : c.distance.lens.length ≤ symbolRange) (h₁ : onLitLen Alphabet.buildCodes c = .ok n c₁)
    (h₂ : onDistance Alphabet.buildCodes c₁ = .ok m c₂) : c₂.Encodes := by
  obtain ⟨⟨a, book⟩, notes, hb₁, rfl⟩ := ok_of_building (fun _ => rfl) h₁
  obtain ⟨⟨a', book'⟩, notes', hb₂, rfl⟩ := ok_of_building (fun _ => rfl) h₂
  obtain ⟨t, rfl, ht⟩ := Alphabet.buildCodes_inv hl hb₁
  obtain ⟨t', rfl, ht'⟩ := Alphabet.buildCodes_inv hd hb₂
  exact ⟨ht, ht'⟩

end Codec

theorem AlphabetSizes.total_le_of_ofFields {hlit hdist hclen : Nat} {sizes : AlphabetSizes}
    (h : ofFields hlit hdist hclen = .ok sizes) : sizes.total ≤ maxLitLenCount + maxDistanceCount := by
  have hfields : hlit ≤ 29 ∧ hdist ≤ 29 ∧ hclen ≤ 15 := by
    by_contra hn
    obtain ⟨detail, he⟩ := ofFields_error hn
    rw [he] at h
    cases h
  obtain ⟨hl, hd, hc⟩ := hfields
  rw [ofFields_ok hl hd hc] at h
  cases h
  simp only [total, maxLitLenCount, maxDistanceCount]
  omega

namespace Decoding

variable {s s' : Decoding}

theorem returns_readSizes :
    Returns (fun sizes => sizes.total ≤ maxLitLenCount + maxDistanceCount) readSizes := by
  refine returns_bind_of fun _ => ?_
  refine returns_bind_of fun hlit => returns_bind_of fun hdist => returns_bind_of fun hclen => ?_
  refine returns_bind_of fun _ => returns_bind_of fun _ => returns_bind_of fun _ => ?_
  cases hf : AlphabetSizes.ofFields hlit hdist hclen with
  | ok sizes => exact returns_pure (AlphabetSizes.total_le_of_ofFields hf)
  | error e => exact returns_throw

theorem returns_readOpening :
    Returns (fun sizes => sizes.total ≤ maxLitLenCount + maxDistanceCount) readOpening := by
  refine returns_bind_of fun _ => returns_bind_of fun _ => ?_
  refine returns_bind returns_readSizes fun sizes hle => ?_
  refine returns_bind_of fun _ => returns_bind_of fun _ => returns_bind_of fun _ => ?_
  exact returns_bind_of fun _ => returns_bind_of fun _ => returns_pure hle

theorem decodes_of_loadTables {sizes : AlphabetSizes} {tokens n : Nat}
    (hlen : s.codec.litLen.lens.length ≤ slotSymbols) (h : loadTables sizes tokens s = .ok n s') :
    s'.codec.Decodes := by
  unfold loadTables at h
  obtain ⟨_, s₁, h₁, h⟩ := ok_of_bind h
  obtain ⟨c₁, hsplit, rfl⟩ := ok_of_focus h₁
  obtain rfl := Codec.splitLengths_inv hsplit
  obtain ⟨n₂, s₂, h₂, h⟩ := ok_of_bind h
  obtain ⟨c₂, hlit, rfl⟩ := ok_of_focus h₂
  obtain ⟨n₃, s₃, h₃, h⟩ := ok_of_bind h
  obtain ⟨c₃, hdist, rfl⟩ := ok_of_focus h₃
  have hd : c₃.Decodes := by
    refine Codec.decodes_of_buildLookups ?_ ?_ hlit hdist
    · exact Nat.le_trans (List.take_sublist ..).length_le hlen
    · exact Nat.le_trans (List.drop_sublist ..).length_le hlen
  cases h
  exact hd

/-- Whatever the decoder is used on, tables that it loads are those for the lengths. -/
theorem decodes_of_decodeHeader {n : Nat} (h : decodeHeader s = .ok n s') : s'.codec.Decodes := by
  rw [decodeHeader_eq] at h
  obtain ⟨sizes, s₁, h₁, h⟩ := ok_of_bind h
  have htotal := returns_readOpening _ _ _ h₁
  rw [run_bind_ok run_get] at h
  obtain ⟨tokens, s₂, h₂, hload⟩ := ok_of_bind h
  obtain ⟨p, hp, rfl⟩ := readLengths_inv h₂
  have hlen := LengthReading.length_le_of_readTokens hp
  refine decodes_of_loadTables ?_ hload
  show p.lens.length ≤ slotSymbols
  simp only [List.length_nil, maxLitLenCount, maxDistanceCount, slotSymbols] at *
  omega

end Decoding

namespace Encoding

variable {s s' : Encoding}

theorem encodes_of_loadTables {sizes : AlphabetSizes} {size tokens : Nat}
    (hlen : s.codec.litLen.lens.length ≤ symbolRange)
    (h : loadTables sizes size tokens s = .ok () s') : s'.codec.Encodes := by
  unfold loadTables at h
  obtain ⟨_, s₁, h₁, h⟩ := ok_of_bind h
  obtain ⟨c₁, hsplit, rfl⟩ := ok_of_focus h₁
  obtain rfl := Codec.splitLengths_inv hsplit
  obtain ⟨_, s₂, h₂, h⟩ := ok_of_bind h
  obtain ⟨n₂, h₂⟩ := ok_of_discard h₂
  obtain ⟨c₂, hlit, rfl⟩ := ok_of_focus h₂
  obtain ⟨_, s₃, h₃, h⟩ := ok_of_bind h
  obtain ⟨n₃, h₃⟩ := ok_of_discard h₃
  obtain ⟨c₃, hdist, rfl⟩ := ok_of_focus h₃
  have he : c₃.Encodes := by
    refine Codec.encodes_of_buildCodes ?_ ?_ hlit hdist
    · exact Nat.le_trans (List.take_sublist ..).length_le hlen
    · exact Nat.le_trans (List.drop_sublist ..).length_le hlen
  by_cases hsize : 3 + sizes.packedSize + tokens ≠ size
  · dsimp only at h
    rw [if_pos hsize] at h
    cases h
  · dsimp only at h
    rw [if_neg hsize] at h
    cases h
    exact he

/-- Whatever the encoder is used on, tables that it loads are those for the lengths. -/
theorem encodes_of_encodeHeader {puff : List UInt8} (hc : s.codec.Sized)
    (h : encodeHeader puff s = .ok () s') : s'.codec.Encodes := by
  obtain ⟨hd, bytes, c, ho, -, -, -, -, hwrite⟩ := encodeHeader_opening hc h
  have htotal := ho.total_le
  unfold writeBody at hwrite
  obtain ⟨_, s₁, -, hwrite⟩ := ok_of_bind hwrite
  rw [run_bind_ok run_get] at hwrite
  obtain ⟨tokens, s₂, h₂, hload⟩ := ok_of_bind hwrite
  obtain ⟨p, hp, rfl⟩ := writeLengths_inv h₂
  have hlen := LengthWriting.length_le_of_writeTokens hp
  refine encodes_of_loadTables ?_ hload
  show p.lens.length ≤ symbolRange
  simp only [List.length_nil, maxLitLenCount, maxDistanceCount, symbolRange] at *
  omega

end Encoding

/-! ## The fixed code -/

theorem fixedLitLenLengths_feasible : Lengths.Feasible fixedLitLenLengths := by decide +kernel

theorem fixedDistanceLengths_feasible : Lengths.Feasible fixedDistanceLengths := by decide +kernel

namespace Codec

/-- The codec holds the fixed code, and tables for it for both directions. -/
structure HoldsFixed (c : Codec) : Prop where
  done : c.Done .fixed
  litLen_eq : c.litLen.lens = fixedLitLenLengths
  distance_eq : c.distance.lens = fixedDistanceLengths
  decodes : c.Decodes
  encodes : c.Encodes

/-- The fixed tables are always built, whatever the codec holds. -/
theorem buildFixed_ok {c : Codec} (hc : c.Sized) (hne : c.loaded ≠ some .fixed) :
    ∃ c', buildFixed c = .ok () c' ∧ c'.HoldsFixed := by
  obtain ⟨c₀, hbegin, hready, -⟩ := begin_ok hc
  have hl := fixedLitLenLengths_feasible
  have hd := fixedDistanceLengths_feasible
  have hl' : fixedLitLenLengths.length ≤ slotSymbols := by
    rw [length_fixedLitLenLengths]
    decide
  have hd' : fixedDistanceLengths.length ≤ slotSymbols := by decide
  have hrange : slotSymbols ≤ symbolRange := by decide
  obtain ⟨t₁, b₁, n₁, h₁, hdec₁, hcap₁⟩ := onLitLen_buildLookup_ok
    (c := c₀.withLengths fixedLitLenLengths fixedDistanceLengths) hl hl'
    (hready.litLen.capacity ▸ two_pow_maxLength_le hl)
  obtain ⟨t₂, b₂, n₂, h₂, hdec₂, hcap₂⟩ := onDistance_buildLookup_ok
    (c := { c₀ with
      litLen := { c₀.litLen with lens := fixedLitLenLengths, lookup := t₁ }
      distance := { c₀.distance with lens := fixedDistanceLengths }
      book := b₁, notes := n₁ }) hd hd' (hready.distance.capacity ▸ two_pow_maxLength_le hd)
  obtain ⟨t₃, b₃, n₃, h₃, henc₃, hsize₃⟩ := onLitLen_buildCodes_ok
    (c := { c₀ with
      litLen := { c₀.litLen with lens := fixedLitLenLengths, lookup := t₁ }
      distance := { c₀.distance with lens := fixedDistanceLengths, lookup := t₂ }
      book := b₂, notes := n₂ }) hl (Nat.le_trans hl' hrange)
  obtain ⟨t₄, b₄, n₄, h₄, henc₄, hsize₄⟩ := onDistance_buildCodes_ok
    (c := { c₀ with
      litLen := ⟨fixedLitLenLengths, t₁, t₃⟩
      distance := { c₀.distance with lens := fixedDistanceLengths, lookup := t₂ }
      book := b₃, notes := n₃ }) hd (Nat.le_trans hd' hrange)
  refine ⟨{ c₀ with
    litLen := ⟨fixedLitLenLengths, t₁, t₃⟩
    distance := ⟨fixedDistanceLengths, t₂, t₄⟩
    book := b₄
    notes := n₄ ++ [.fixedBuilt fixedLitLenLengths.maxLength fixedDistanceLengths.maxLength]
    loaded := some .fixed }, ?_, ⟨⟨?_, rfl⟩, rfl, rfl, ⟨hdec₁, hdec₂⟩, ⟨henc₃, henc₄⟩⟩⟩
  · unfold buildFixed
    rw [run_bind_ok run_get, if_neg hne, run_bind_ok hbegin]
    refine (run_bind_ok (run_modify _)).trans ?_
    refine (run_bind_ok h₁).trans ?_
    refine (run_bind_ok h₂).trans ?_
    refine (run_bind_ok (run_discard_ok h₃)).trans ?_
    exact (run_bind_ok (run_discard_ok h₄)).trans rfl
  · exact ⟨hready.codeLength, ⟨hcap₁.trans hready.litLen.capacity, hsize₃.trans hready.litLen.size⟩,
      ⟨hcap₂.trans hready.distance.capacity, hsize₄.trans hready.distance.size⟩,
      hready.length_codeLength⟩

/-! ## The invariant -/

/-- The loaded tables have their storage and belong to the lengths that the codec holds. -/
structure Coherent (c : Codec) : Prop where
  ready : ∀ set, c.loaded = some set → c.Ready
  decodes : ∀ set, c.loaded = some set → set.serves .decode = true → c.Decodes
  encodes : ∀ set, c.loaded = some set → set.serves .encode = true → c.Encodes
  fixed : c.loaded = some .fixed →
    c.litLen.lens = fixedLitLenLengths ∧ c.distance.lens = fixedDistanceLengths

variable {c : Codec}

theorem coherent_of_none (h : c.loaded = none) : c.Coherent where
  ready set hset := by rw [h] at hset; cases hset
  decodes set hset := by rw [h] at hset; cases hset
  encodes set hset := by rw [h] at hset; cases hset
  fixed hset := by rw [h] at hset; cases hset

theorem HoldsFixed.coherent (h : c.HoldsFixed) : c.Coherent where
  ready _ _ := h.done.ready
  decodes _ _ _ := h.decodes
  encodes _ _ _ := h.encodes
  fixed _ := ⟨h.litLen_eq, h.distance_eq⟩

/-- Tables that were loaded by reading a header. -/
theorem Done.coherent_of_decodes (h : c.Done .dynamicDecode) (hd : c.Decodes) : c.Coherent where
  ready _ _ := h.ready
  decodes _ _ _ := hd
  encodes set hset hserves := by
    rw [h.loaded_eq] at hset
    cases hset
    cases hserves
  fixed hset := by
    rw [h.loaded_eq] at hset
    cases hset

/-- Tables that were loaded by writing a header. -/
theorem Done.coherent_of_encodes (h : c.Done .dynamicEncode) (he : c.Encodes) : c.Coherent where
  ready _ _ := h.ready
  decodes set hset hserves := by
    rw [h.loaded_eq] at hset
    cases hset
    cases hserves
  encodes _ _ _ := he
  fixed hset := by
    rw [h.loaded_eq] at hset
    cases hset

/-- Storage that is there is left alone. -/
theorem Ready.reserve_eq (h : c.Ready) : c.reserve = c := by
  have hlookup : ∀ {t : LookupTable} {bits : Nat}, t.capacity = slotCount bits → t.isEmpty = false := by
    intro t bits ht
    simp [LookupTable.isEmpty, ht, slotCount_eq]
  have hcodes : ∀ {t : CodeTable} {size : Nat}, t.size = size + 1 → t.isEmpty = false := by
    intro t size ht
    simp only [CodeTable.size] at ht
    simp [CodeTable.isEmpty, Array.isEmpty, ht]
  have hreserve : ∀ {a : Alphabet} {bits size : Nat}, a.Ready bits (size + 1) →
      a.reserve bits (size + 1) = a := by
    intro a bits size ha
    simp only [Alphabet.reserve, hlookup ha.capacity, hcodes ha.size]
    rfl
  have h₁ : c.codeLength.reserve maxCodeLengthBits codeLengthCount = c.codeLength :=
    hreserve h.codeLength
  have h₂ : c.litLen.reserve maxCodeBits fixedLitLenCount = c.litLen := hreserve h.litLen
  have h₃ : c.distance.reserve maxCodeBits maxDistanceCount = c.distance := hreserve h.distance
  unfold reserve
  rw [h₁, h₂, h₃]
  dsimp only
  rw [if_pos h.length_codeLength]

/-- What holds before and after every operation. -/
structure Sound (c : Codec) : Prop where
  sized : c.Sized
  coherent : c.Coherent

theorem Sound.decodeHeader {s : Decoding} (h : s.codec.Sound) :
    (finalState (Decoding.decodeHeader s)).codec.Sound := by
  refine ⟨Decoding.keeps_decodeHeader s h.sized, ?_⟩
  have hpair := Decoding.decodeHeader_lockstep s s
    ⟨⟨h.sized, h.sized⟩, (BitReader.extend_nil _).symm, rfl⟩
  cases hrun : Decoding.decodeHeader s with
  | ok n s' =>
    rw [hrun] at hpair
    obtain ⟨_, -, hq⟩ := hpair.ok_inv
    exact hq.codec.left.coherent_of_decodes (Decoding.decodes_of_decodeHeader hrun)
  | error e s' => exact coherent_of_none (Decoding.loaded_of_decodeHeader h.sized hrun)

theorem Sound.encodeHeader {s : Encoding} (h : s.codec.Sound) (puff : List UInt8) :
    (finalState (Encoding.encodeHeader puff s)).codec.Sound := by
  refine ⟨Encoding.keeps_encodeHeader puff s h.sized, ?_⟩
  have hpair : EndAlike (fun _ => False) _ _ (Encoding.encodeHeader puff s) _ :=
    Encoding.encodeHeader_lockstep puff s s ⟨⟨h.sized, h.sized⟩, rfl⟩
  cases hrun : Encoding.encodeHeader puff s with
  | ok n s' =>
    rw [hrun] at hpair
    obtain ⟨_, -, hq⟩ := hpair.ok_inv
    exact hq.codec.left.coherent_of_encodes (Encoding.encodes_of_encodeHeader h.sized hrun)
  | error e s' => exact coherent_of_none (Encoding.loaded_of_encodeHeader h.sized hrun)

theorem sound_lasting : Lasting Sound where
  remark note := by
    intro c h
    have hc := h.coherent
    exact ⟨keeps_remark sized_ofStorage note c h.sized,
      ⟨fun set hset => (hc.ready set hset).with_notes _, hc.decodes, hc.encodes, hc.fixed⟩⟩
  decodeHeader _ h := Sound.decodeHeader h
  encodeHeader puff _ h := Sound.encodeHeader h puff

theorem Sound.reserve (h : c.Sound) : c.reserve.Sound := by
  refine ⟨h.sized.reserve.sized, ?_⟩
  cases hload : c.loaded with
  | none => exact coherent_of_none hload
  | some set =>
    rw [(h.coherent.ready set hload).reserve_eq]
    exact h.coherent

/-- Tables for the fixed code that are loaded are left alone, and otherwise they are built. -/
theorem buildFixed_run (h : c.Sound) :
    ∃ c', buildFixed c = .ok () c' ∧ c'.Coherent ∧ c'.loaded = some .fixed := by
  by_cases hfix : c.loaded = some .fixed
  · refine ⟨c, ?_, h.coherent, hfix⟩
    unfold buildFixed
    rw [run_bind_ok run_get, if_pos hfix]
    rfl
  · obtain ⟨c', hrun, hfixed⟩ := buildFixed_ok h.sized hfix
    exact ⟨c', hrun, hfixed.coherent, hfixed.done.loaded_eq⟩

theorem keeps_sound_buildFixed : Keeps Sound buildFixed := by
  intro c h
  refine ⟨keeps_buildFixed c h.sized, ?_⟩
  obtain ⟨c', hrun, hcoherent, -⟩ := buildFixed_run h
  rw [hrun]
  exact hcoherent

theorem Reachable.sound (h : c.Reachable) : c.Sound := by
  refine h.of_lasting sound_lasting ?_ ?_ ?_ keeps_sound_buildFixed
  · exact ⟨sized_new, coherent_of_none rfl⟩
  · exact fun _ hc => hc.reserve
  · exact fun c _ => ⟨Sized.reset c, coherent_of_none rfl⟩

theorem Reachable.coherent (h : c.Reachable) : c.Coherent := h.sound.coherent

/-! ## Accessors -/

theorem serves_decode_iff {set : TableSet} :
    set.serves .decode = true ↔ set = .fixed ∨ set = .dynamicDecode := by
  cases set <;> simp [TableSet.serves]

theorem serves_encode_iff {set : TableSet} :
    set.serves .encode = true ↔ set = .fixed ∨ set = .dynamicEncode := by
  cases set <;> simp [TableSet.serves]

section Guarded

variable {α : Type} {direction : Direction}

theorem guarded_of_serves {set : TableSet} (hload : c.loaded = some set)
    (hserves : set.serves direction = true) (answer : Except Error α) :
    c.guarded direction answer = answer := by
  rw [guarded, hload]
  exact if_pos hserves

theorem guarded_of_not_serves (h : ∀ set, c.loaded = some set → set.serves direction ≠ true)
    (answer : Except Error α) :
    c.guarded direction answer = .error (.invalid (.tablesNotLoaded direction)) := by
  unfold guarded
  cases hload : c.loaded with
  | none => rfl
  | some set => exact if_neg (h set hload)

end Guarded

/-- Loaded tables for decoding answer keys by the code of the lengths. -/
theorem answersKeys_of_decodes {set : TableSet} (hload : c.loaded = some set)
    (hserves : set.serves .decode = true) (hd : c.Decodes) :
    AnswersKeys c.litLen.lens c.litLenSymbol ∧ AnswersKeys c.distance.lens c.distanceSymbol := by
  have hlit : c.litLenSymbol = c.litLen.symbolAt := by
    funext key
    exact guarded_of_serves hload hserves _
  have hdist : c.distanceSymbol = c.distance.symbolAt := by
    funext key
    exact guarded_of_serves hload hserves _
  rw [hlit, hdist]
  exact ⟨Alphabet.answersKeys hd.1, Alphabet.answersKeys hd.2⟩

/-- Loaded tables for encoding answer symbols by the code of the lengths, as far as the tables go. -/
theorem answersSymbols_of_encodes {set : TableSet} (hload : c.loaded = some set)
    (hserves : set.serves .encode = true) (he : c.Encodes) :
    AnswersSymbols c.litLen.lens c.litLen.codes.size c.litLenCode ∧
      AnswersSymbols c.distance.lens c.distance.codes.size c.distanceCode := by
  have hlit : c.litLenCode = c.litLen.codeOf := by
    funext s
    exact guarded_of_serves hload hserves _
  have hdist : c.distanceCode = c.distance.codeOf := by
    funext s
    exact guarded_of_serves hload hserves _
  rw [hlit, hdist]
  exact ⟨Alphabet.answersSymbols he.1, Alphabet.answersSymbols he.2⟩

/-- The tables for decoding also look ahead as far as the longest code goes. -/
theorem Coherent.answersKeys (h : c.Coherent) {set : TableSet} (hload : c.loaded = some set)
    (hserves : set.serves .decode = true) :
    (AnswersKeys c.litLen.lens c.litLenSymbol ∧
      c.litLen.lookup.maxBits = c.litLen.lens.maxLength) ∧
    AnswersKeys c.distance.lens c.distanceSymbol ∧
      c.distance.lookup.maxBits = c.distance.lens.maxLength := by
  have hd := h.decodes set hload hserves
  obtain ⟨hlit, hdist⟩ := answersKeys_of_decodes hload hserves hd
  exact ⟨⟨hlit, hd.1.maxBits_eq⟩, hdist, hd.2.maxBits_eq⟩

/-- The tables for encoding have the entries that were reserved. -/
theorem Coherent.answersSymbols (h : c.Coherent) {set : TableSet} (hload : c.loaded = some set)
    (hserves : set.serves .encode = true) :
    AnswersSymbols c.litLen.lens fixedLitLenCount c.litLenCode ∧
      AnswersSymbols c.distance.lens maxDistanceCount c.distanceCode := by
  have hready := h.ready set hload
  rw [← hready.litLen.size, ← hready.distance.size]
  exact answersSymbols_of_encodes hload hserves (h.encodes set hload hserves)

/-- In every state that a codec can be brought into, the accessors of a loaded direction answer by the
canonical codes of the lengths that it holds, and those of the other direction say that no tables
are loaded. -/
theorem answers_of_reachable (h : c.Reachable) :
    (c.loaded = some .fixed ∨ c.loaded = some .dynamicDecode →
      (AnswersKeys c.litLen.lens c.litLenSymbol ∧
        c.litLen.lookup.maxBits = c.litLen.lens.maxLength) ∧
      AnswersKeys c.distance.lens c.distanceSymbol ∧
        c.distance.lookup.maxBits = c.distance.lens.maxLength) ∧
    (c.loaded = some .fixed ∨ c.loaded = some .dynamicEncode →
      AnswersSymbols c.litLen.lens fixedLitLenCount c.litLenCode ∧
        AnswersSymbols c.distance.lens maxDistanceCount c.distanceCode) ∧
    (¬ (c.loaded = some .fixed ∨ c.loaded = some .dynamicDecode) → ∀ key,
      c.litLenSymbol key = .error (.invalid (.tablesNotLoaded .decode)) ∧
        c.distanceSymbol key = .error (.invalid (.tablesNotLoaded .decode))) ∧
    (¬ (c.loaded = some .fixed ∨ c.loaded = some .dynamicEncode) → ∀ s,
      c.litLenCode s = .error (.invalid (.tablesNotLoaded .encode)) ∧
        c.distanceCode s = .error (.invalid (.tablesNotLoaded .encode))) := by
  have hc := h.coherent
  refine ⟨?_, ?_, ?_, ?_⟩
  · rintro (hload | hload)
    · exact hc.answersKeys hload rfl
    · exact hc.answersKeys hload rfl
  · rintro (hload | hload)
    · exact hc.answersSymbols hload rfl
    · exact hc.answersSymbols hload rfl
  · intro hnot key
    have hserves : ∀ set, c.loaded = some set → set.serves .decode ≠ true := by
      rintro set hload hserves
      rcases serves_decode_iff.mp hserves with rfl | rfl
      · exact hnot (.inl hload)
      · exact hnot (.inr hload)
    exact ⟨guarded_of_not_serves hserves _, guarded_of_not_serves hserves _⟩
  · intro hnot s
    have hserves : ∀ set, c.loaded = some set → set.serves .encode ≠ true := by
      rintro set hload hserves
      rcases serves_encode_iff.mp hserves with rfl | rfl
      · exact hnot (.inl hload)
      · exact hnot (.inr hload)
    exact ⟨guarded_of_not_serves hserves _, guarded_of_not_serves hserves _⟩

/-- A new codec that has built the fixed tables answers with their codes. -/
theorem answers_of_buildFixed :
    ∃ c : Codec, c.Reachable ∧ c.loaded = some .fixed ∧
      c.litLenCode 0 = .ok (12, 8) ∧ c.litLenSymbol 12 = .ok (0, 8) ∧
      c.distanceCode 30 = .error (.invalid (.unusedSymbol 30)) := by
  obtain ⟨c, hrun, hfixed⟩ := buildFixed_ok sized_new (by decide)
  have hreach : c.Reachable := by
    have h := Reachable.new.buildFixed
    rwa [hrun] at h
  have hload := hfixed.done.loaded_eq
  obtain ⟨hkeys, hsymbols, -, -⟩ := answers_of_reachable hreach
  obtain ⟨⟨hlit, -⟩, -, -⟩ := hkeys (.inl hload)
  obtain ⟨hlit', hdist'⟩ := hsymbols (.inl hload)
  have hcode : Lengths.HasCode fixedLitLenLengths 0 12 8 :=
    ⟨rfl, by decide, by decide +kernel⟩
  refine ⟨c, hreach, hload, ?_, ?_, ?_⟩
  · rw [hlit'.ok_iff, hfixed.litLen_eq]
    exact ⟨by decide, hcode⟩
  · rw [hlit.ok_iff, hfixed.litLen_eq]
    exact hcode
  · exact hdist'.unused 30 fun _ _ h => absurd h.1 (by decide)

end Codec

end DeflateHeader
