import DeflateHeader.Proofs.CodecBuilds
import DeflateHeader.Proofs.Lockstep

/-!
# Two codecs in one build

A codec is used again and again, and nothing that it held is cleared before the next build. This does
not show: `begin` brings any two codecs into states that differ in what the build never reads, and each
step keeps it so. `Codec.Agree view c d` is the relation that the steps preserve. Both codecs are in
the middle of a build, with all their storage and no tables loaded, and they show the same to `view`,
which grows from step to step: first the lengths of the code-length alphabet, then its table, at last
the lengths of all three alphabets.

The old tables do not matter as a build looks only at the lengths and at the storage
(`LookupTable.build_lockstep`, `CodeTable.build_lockstep`), and the old code book does not matter as
`assign` does not look at it (`CodeBook.assign_lockstep`).
-/

namespace DeflateHeader

variable {excused : Error → Prop} {α : Type}

/-! ## Tables -/

/-- The book that was there before has no influence. -/
theorem CodeBook.assign_lockstep (lens : Lengths) :
    Lockstep excused (fun _ _ => True) (assign lens) (fun _ => Eq) fun _ _ => True := by
  intro s t _
  unfold assign
  cases tooLong? lens with
  | some len => exact .error trivial
  | none =>
    dsimp only
    cases exhausted? (fun l => lens.counts.getD l 0) (longest fun l => lens.counts.getD l 0) with
    | some l => exact .error trivial
    | none =>
      dsimp only
      cases codeWords ((List.range (maxCodeBits + 1)).map
          (firstCode fun l => lens.counts.getD l 0)).toArray 0 lens with
      | none => exact .error trivial
      | some words => exact .ok rfl

/-- Of the table that was there before, only the storage has an influence. -/
theorem LookupTable.build_lockstep (lens : Lengths) :
    Lockstep excused (fun s t => t.1.capacity = s.1.capacity) (build lens) (fun _ s t => t.1 = s.1)
      fun _ _ => True := by
  refine lockstep_bind (M := fun _ s t => t.1.capacity = s.1.capacity ∧ t.2 = s.2)
    (lockstep_focus (fun _ _ _ => trivial) (CodeBook.assign_lockstep lens) ?_ ?_) fun maxBits => ?_
  · rintro a s t u v hcap rfl
    exact ⟨hcap, rfl⟩
  · exact fun _ _ _ _ _ _ => trivial
  rintro ⟨table, book⟩ ⟨table', book'⟩ ⟨hcap, rfl⟩
  dsimp only at hcap
  apply EndAlike.get_bind
  dsimp only
  rw [hcap]
  by_cases hroom : table.capacity < slotCount maxBits
  · rw [if_pos hroom]
    exact .error trivial
  rw [if_neg hroom]
  cases sized lens.toArray book' with
  | none => exact .error trivial
  | some words =>
    dsimp only
    cases placeAll maxBits (longestFirst words) with
    | none => exact .error trivial
    | some slots =>
      exact .ok rfl

theorem CodeTable.build_lockstep (lens : Lengths) :
    Lockstep excused (fun s t => t.1.size = s.1.size) (build lens) (fun _ s t => t.1 = s.1)
      fun _ _ => True := by
  refine lockstep_bind (M := fun _ s t => t.1.size = s.1.size ∧ t.2 = s.2)
    (lockstep_focus (fun _ _ _ => trivial) (CodeBook.assign_lockstep lens) ?_ ?_) fun maxBits => ?_
  · rintro a s t u v hsize rfl
    exact ⟨hsize, rfl⟩
  · exact fun _ _ _ _ _ _ => trivial
  rintro ⟨table, book⟩ ⟨table', book'⟩ ⟨hsize, rfl⟩
  refine .ok ?_
  show CodeTable.mk (codesFrom 0 table'.size _).toArray = ⟨(codesFrom 0 table.size _).toArray⟩
  rw [show table'.size = table.size from hsize]

namespace Alphabet

/-- A build of one of the two tables: it depends only on the lengths and the storage, and leaves
both. -/
structure Rebuilds {τ : Type} (table : Alphabet → τ) (act : EStateM Error (Alphabet × CodeBook) α) :
    Prop where
  keeps : ∀ a : Alphabet, Keeps (fun s => a.SameShape s.1) act
  lockstep : ∀ excused : Error → Prop,
    Lockstep excused (fun s t => s.1.SameShape t.1) act
      (fun _ s t => t.1.lens = s.1.lens ∧ table t.1 = table s.1) fun _ _ => True

theorem buildLookup_rebuilds : Rebuilds lookup buildLookup where
  keeps := keeps_buildLookup
  lockstep excused := by
    rintro ⟨a, book⟩ ⟨b, book'⟩ ⟨⟨hcap, -⟩, hlens⟩
    apply EndAlike.get_bind
    dsimp only at hlens hcap ⊢
    rw [hlens]
    refine (LookupTable.build_lockstep a.lens (a.lookup, book) (b.lookup, book') hcap).focus ?_ ?_
    · exact fun _ _ _ h => ⟨hlens, h⟩
    · exact fun _ _ _ => trivial

theorem buildCodes_rebuilds : Rebuilds codes buildCodes where
  keeps := keeps_buildCodes
  lockstep excused := by
    rintro ⟨a, book⟩ ⟨b, book'⟩ ⟨⟨-, hsize⟩, hlens⟩
    apply EndAlike.get_bind
    dsimp only at hlens hsize ⊢
    rw [hlens]
    refine (CodeTable.build_lockstep a.lens (a.codes, book) (b.codes, book') hsize).focus ?_ ?_
    · exact fun _ _ _ h => ⟨hlens, h⟩
    · exact fun _ _ _ => trivial

end Alphabet

/-! ## Codecs -/

namespace Codec

variable {β γ : Type} {view : Codec → β} {view' : Codec → γ}

/-- A build has begun and not ended. -/
structure Begun (c : Codec) : Prop where
  ready : c.Ready
  loaded_eq : c.loaded = none

/-- Two codecs in the middle of a build that show the same to `view`. -/
structure Agree (view : Codec → β) (c d : Codec) : Prop where
  left : c.Begun
  right : d.Begun
  view_eq : view d = view c

/-- Two codecs in the middle of a build, about which nothing else is known. -/
abbrev BothBegun : Codec → Codec → Prop := Agree fun _ => ()

theorem Agree.forget {c d : Codec} (h : Agree view c d) : BothBegun c d := ⟨h.left, h.right, rfl⟩

/-- The lengths of the code-length alphabet. -/
def codeLens (c : Codec) : Lengths := c.codeLength.lens

/-- The lengths of the code-length alphabet and one of its tables. -/
def codeWith {τ : Type} (table : Alphabet → τ) (c : Codec) : Lengths × τ :=
  (c.codeLength.lens, table c.codeLength)

/-- The lengths before they are split. -/
def joinedLens (c : Codec) : Lengths × Lengths := (c.codeLength.lens, c.litLen.lens)

/-- The lengths of all three alphabets. -/
def allLens (c : Codec) : Lengths × Lengths × Lengths :=
  (c.codeLength.lens, c.litLen.lens, c.distance.lens)

theorem allLens_inj {c d : Codec} (h : d.allLens = c.allLens) :
    d.codeLength.lens = c.codeLength.lens ∧ d.litLen.lens = c.litLen.lens ∧
      d.distance.lens = c.distance.lens := by
  obtain ⟨hcode, hrest⟩ := Prod.mk.inj h
  exact ⟨hcode, Prod.mk.inj hrest⟩

/-- A build has ended and loaded `set`. -/
structure Done (set : TableSet) (c : Codec) : Prop where
  ready : c.Ready
  loaded_eq : c.loaded = some set

/-- Two codecs that have loaded tables for the same lengths. -/
structure LoadedAlike (set : TableSet) (c d : Codec) : Prop where
  left : c.Done set
  right : d.Done set
  allLens_eq : d.allLens = c.allLens

theorem begun_ofStorage : OfStorage Begun := by
  intro c d hc h
  have hr := hc.ready
  exact ⟨⟨h.codeLength.ready hr.codeLength, h.litLen.ready hr.litLen, h.distance.ready hr.distance,
    h.length_codeLength.trans hr.length_codeLength⟩, h.loaded_eq.trans hc.loaded_eq⟩

theorem Begun.withLitLen {c : Codec} (h : c.Begun) (lens : Lengths) : (c.withLitLen lens).Begun :=
  begun_ofStorage _ _ h ⟨.refl _, ⟨rfl, rfl⟩, .refl _, rfl, rfl⟩

/-- A step that does not end the build, and after which both codecs show the same to `view'`. -/
theorem lockstep_agree {x : EStateM Error Codec α} (hk : Keeps Begun x)
    (hx : Lockstep excused (Agree view) x (fun _ c d => view' d = view' c) fun _ _ => True) :
    Lockstep excused (Agree view) x (fun _ => Agree view') BothBegun := by
  refine lockstep_mono (lockstep_keeping (fun _ _ h => ⟨h.left, h.right⟩) hk hx) ?_ ?_
  · exact fun _ _ _ ⟨heq, hl, hr⟩ => ⟨hl, hr, heq⟩
  · exact fun _ _ ⟨_, hl, hr⟩ => ⟨hl, hr, rfl⟩

theorem begin_lockstep :
    Lockstep excused (fun c d => c.Sized ∧ d.Sized) begin (fun _ => BothBegun) BothBegun := by
  rintro c d ⟨hc, hd⟩
  obtain ⟨c', hcb, hcr, hcl⟩ := begin_ok hc
  obtain ⟨d', hdb, hdr, hdl⟩ := begin_ok hd
  rw [hcb, hdb]
  exact .ok ⟨⟨hcr, hcl⟩, ⟨hdr, hdl⟩, rfl⟩

theorem remark_lockstep (note : Note) (hview : ∀ c notes, view { c with notes } = view c) :
    Lockstep excused (Agree view) (remark note) (fun _ => Agree view) BothBegun := by
  refine lockstep_agree (keeps_remark begun_ofStorage note) (lockstep_modify ?_)
  intro c d h
  rw [hview c, hview d, h.view_eq]

theorem clearCodeLengths_lockstep :
    Lockstep excused BothBegun clearCodeLengths (fun _ => Agree codeLens) BothBegun := by
  refine lockstep_agree (keeps_clearCodeLengths begun_ofStorage) ?_
  intro c d h
  rw [clearCodeLengths_ok h.left.ready.length_codeLength,
    clearCodeLengths_ok h.right.ready.length_codeLength]
  exact .ok rfl

theorem setCodeLength_lockstep (symbol : Nat) (len : UInt8) :
    Lockstep excused (Agree codeLens) (setCodeLength symbol len) (fun _ => Agree codeLens)
      BothBegun := by
  refine lockstep_agree (keeps_setCodeLength begun_ofStorage symbol len) ?_
  intro c d h
  have hlens : d.codeLength.lens = c.codeLength.lens := h.view_eq
  apply EndAlike.get_bind
  rw [hlens]
  by_cases hle : c.codeLength.lens.length ≤ symbol
  · rw [if_pos hle, if_pos hle]
    exact .error trivial
  · rw [if_neg hle, if_neg hle]
    exact .ok rfl

theorem splitLengths_lockstep (n : Nat) :
    Lockstep excused (Agree joinedLens) (splitLengths n) (fun _ => Agree allLens) BothBegun := by
  refine lockstep_agree (keeps_splitLengths begun_ofStorage n) ?_
  intro c d h
  obtain ⟨hcode, hlens⟩ : d.codeLength.lens = c.codeLength.lens ∧ d.litLen.lens = c.litLen.lens :=
    Prod.mk.inj h.view_eq
  apply EndAlike.get_bind
  rw [hlens]
  by_cases hlt : c.litLen.lens.length < n
  · rw [if_pos hlt, if_pos hlt]
    exact .error trivial
  · rw [if_neg hlt, if_neg hlt]
    refine .ok ?_
    show (d.codeLength.lens, _, _) = (c.codeLength.lens, _, _)
    rw [hcode]

theorem finish_lockstep (set : TableSet) :
    Lockstep excused (Agree allLens) (finish set) (fun _ => LoadedAlike set) BothBegun := by
  refine lockstep_modify ?_
  intro c d h
  have hc := h.left.ready
  have hd := h.right.ready
  exact ⟨⟨⟨hc.codeLength, hc.litLen, hc.distance, hc.length_codeLength⟩, rfl⟩,
    ⟨⟨hd.codeLength, hd.litLen, hd.distance, hd.length_codeLength⟩, rfl⟩, h.view_eq⟩

/-! ## Builds -/

section Building

variable {view : Codec → Alphabet} {put : Alphabet → Codec → Codec}
  {act : EStateM Error (Alphabet × CodeBook) α} {c d : Codec}

/-- Two builds, if what they do on their alphabets ends alike. -/
theorem building_alike {Q : α → Codec → Codec → Prop} {S : α → Alphabet × CodeBook → Alphabet × CodeBook → Prop}
    (hview : ∀ (c : Codec) notes, view { c with notes } = view c)
    (h : EndAlike excused S (fun _ _ => True) (act (view c, c.book)) (act (view d, d.book)))
    (hput : ∀ a u v notes notes', S a u v →
      Q a { put u.1 { c with notes } with book := u.2 }
        { put v.1 { d with notes := notes' } with book := v.2 }) :
    EndAlike excused Q (fun _ _ => True) (building view put act c) (building view put act d) := by
  obtain ⟨notes, hc⟩ := remarkLengths_ok (view c).lens c
  obtain ⟨notes', hd⟩ := remarkLengths_ok (view d).lens d
  unfold building
  rw [run_bind_ok run_get, run_bind_ok hc, run_bind_ok run_get, run_bind_ok hd]
  rw [← hview c notes, ← hview d notes'] at h
  refine h.focus ?_ ?_
  · exact fun a u v huv => hput a u v notes notes' huv
  · exact fun _ _ _ => trivial

end Building

section Rebuilds

variable {τ : Type} {table : Alphabet → τ} {act : EStateM Error (Alphabet × CodeBook) α}
  (hact : Alphabet.Rebuilds table act)

include hact

theorem onCodeLength_lockstep :
    Lockstep excused (Agree codeLens) (onCodeLength act) (fun _ => Agree (codeWith table))
      BothBegun := by
  refine lockstep_agree (keeps_onCodeLength begun_ofStorage hact.keeps) ?_
  intro c d h
  have hshape : c.codeLength.SameShape d.codeLength :=
    ⟨h.left.ready.codeLength.sameStorage h.right.ready.codeLength, h.view_eq⟩
  refine building_alike (fun _ _ => rfl)
    (hact.lockstep excused (c.codeLength, c.book) (d.codeLength, d.book) hshape) ?_
  rintro a u v notes notes' ⟨hlens, htable⟩
  exact Prod.ext hlens htable

theorem onLitLen_lockstep :
    Lockstep excused (Agree allLens) (onLitLen act) (fun _ => Agree allLens) BothBegun := by
  refine lockstep_agree (keeps_onLitLen begun_ofStorage hact.keeps) ?_
  intro c d h
  obtain ⟨hcode, hlit, hdist⟩ := allLens_inj h.view_eq
  have hshape : c.litLen.SameShape d.litLen :=
    ⟨h.left.ready.litLen.sameStorage h.right.ready.litLen, hlit⟩
  refine building_alike (fun _ _ => rfl)
    (hact.lockstep excused (c.litLen, c.book) (d.litLen, d.book) hshape) ?_
  rintro a u v notes notes' ⟨hlens, -⟩
  exact Prod.ext hcode (Prod.ext hlens hdist)

theorem onDistance_lockstep :
    Lockstep excused (Agree allLens) (onDistance act) (fun _ => Agree allLens) BothBegun := by
  refine lockstep_agree (keeps_onDistance begun_ofStorage hact.keeps) ?_
  intro c d h
  obtain ⟨hcode, hlit, hdist⟩ := allLens_inj h.view_eq
  have hshape : c.distance.SameShape d.distance :=
    ⟨h.left.ready.distance.sameStorage h.right.ready.distance, hdist⟩
  refine building_alike (fun _ _ => rfl)
    (hact.lockstep excused (c.distance, c.book) (d.distance, d.book) hshape) ?_
  rintro a u v notes notes' ⟨hlens, -⟩
  exact Prod.ext hcode (Prod.ext hlit hlens)

end Rebuilds

end Codec
end DeflateHeader
