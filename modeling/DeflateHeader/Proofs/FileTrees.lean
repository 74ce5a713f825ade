import DeflateHeader.Cli.Files
import Mathlib.Data.List.Basic

/-!
# Files by location

Storing a file sets the content at one location and leaves every other location alone
(`FileTree.find?_store`). Where a path leads is no matter of what the files hold: a path that leads
to an entry leads there in every tree (`FileTree.locate_ok`), so what was stored under a path is
read back under it (`FileTree.read_store`).
-/

namespace DeflateHeader.Cli.FileTree

variable {t : FileTree} {location : Location} {content : List UInt8} {path : String}

/-! ## Storing -/

private theorem lookup_cons_ite (file : Location × List UInt8) (files : List (Location × List UInt8))
    (location : Location) : (file :: files).lookup location =
      if location = file.1 then some file.2 else files.lookup location := by
  rw [List.lookup_cons]
  by_cases h : location = file.1
  · rw [if_pos h, beq_iff_eq.mpr h]
  · rw [if_neg h, beq_false_of_ne h]

private theorem lookup_set (files : List (Location × List UInt8)) (location other : Location)
    (content : List UInt8) :
    (files.map fun file => if file.1 = location then (location, content) else file).lookup other =
      if other = location then (files.lookup location).map fun _ => content
      else files.lookup other := by
  induction files with
  | nil => simp
  | cons file files ih =>
    rw [List.map_cons, lookup_cons_ite, lookup_cons_ite, lookup_cons_ite, ih]
    by_cases hfile : file.1 = location
    · by_cases hother : other = location <;> simp [hfile, hother]
    · by_cases hother : other = location
      · simp [hfile, hother, Ne.symm hfile]
      · simp [hfile, hother]

/-- Storing changes the content at one location. -/
theorem find?_store (t : FileTree) (location other : Location) (content : List UInt8) :
    (t.store location content).find? other =
      if other = location then some content else t.find? other := by
  unfold store
  cases hfind : t.find? location with
  | some old =>
    rw [Option.isSome_some, if_pos rfl]
    show List.lookup _ _ = _
    rw [lookup_set]
    split
    · show Option.map _ (t.find? location) = _
      rw [hfind]
      rfl
    · rfl
  | none =>
    rw [Option.isSome_none, if_neg (by simp)]
    show List.lookup _ _ = _
    rw [List.lookup_append]
    by_cases hother : other = location
    · subst hother
      have hnone : t.files.lookup other = none := hfind
      simp [hnone]
    · simp [lookup_cons_ite, hother, find?]

/-! ## Paths -/

/-- A walk that arrives does so in every tree. -/
theorem walk_ok {slash : Bool} {parts : List (List Char)} {folder : Folder} {place : Place}
    (h : t.walk slash folder parts = .ok place) (t' : FileTree) :
    t'.walk slash folder parts = .ok place := by
  induction parts generalizing folder with
  | nil => exact h
  | cons part parts ih =>
    unfold walk at h ⊢
    by_cases hdot : part = ['.']
    · rw [if_pos hdot] at h ⊢
      exact ih h
    · rw [if_neg hdot] at h ⊢
      by_cases hup : part = ['.', '.']
      · rw [if_pos hup] at h ⊢
        exact ih h
      · rw [if_neg hup] at h ⊢
        dsimp only at h ⊢
        split at h
        · next hlast =>
          rw [if_pos hlast]
          exact h
        · split at h <;> cases h

/-- A path leads to the same place in every tree. -/
theorem locate_ok {place : Place} (h : t.locate path = .ok place) (t' : FileTree) :
    t'.locate path = .ok place := by
  unfold locate at h ⊢
  dsimp only at h ⊢
  split at h
  · cases h
  · next hshort =>
    rw [if_neg hshort]
    split at h
    · cases h
    · next hnonempty =>
      rw [if_neg hnonempty]
      exact walk_ok h t'

theorem locate_of_writable (h : t.writable path = .ok location) :
    t.locate path = .ok (.entry location false) := by
  unfold writable at h
  split at h
  · cases h
  · cases h
  · next found slash hlocate =>
    split at h
    · cases h
    · next hslash =>
      split at h
      · cases h
      · obtain rfl : found = location := Except.ok.inj h
        rw [hlocate, Bool.not_eq_true] at *
        rw [hslash]

theorem read_of_locate (h : t.locate path = .ok (.entry location false))
    (hfind : t.find? location = some content) : t.read path = .ok content := by
  unfold read
  rw [h]
  dsimp only
  rw [hfind]
  rfl

/-- What was stored under a path is read under it. -/
theorem read_store (h : t.writable path = .ok location) (content : List UInt8) :
    (t.store location content).read path = .ok content := by
  refine read_of_locate (locate_ok (locate_of_writable h) _) ?_
  rw [find?_store, if_pos rfl]

/-- The location of a path that nothing is present at holds no file. -/
theorem find?_of_not_isPresent (h : t.writable path = .ok location)
    (hpresent : t.isPresent path = false) : t.find? location = none := by
  unfold isPresent at hpresent
  rw [locate_of_writable h] at hpresent
  simpa using hpresent

/-! ## Access -/

theorem bind_apply {α β : Type} (x : StateM FileTree α) (f : α → StateM FileTree β)
    (t : FileTree) : (x >>= f) t = f (x t).1 (x t).2 := rfl

theorem pure_apply {α : Type} (a : α) (t : FileTree) : (pure a : StateM FileTree α) t = (a, t) := rfl

theorem readFile_apply (path : String) (t : FileTree) :
    (FileAccess.readFile path : StateM FileTree _) t = (t.read path, t) := rfl

theorem isPresent_apply (path : String) (t : FileTree) :
    (FileAccess.isPresent path : StateM FileTree _) t = (t.isPresent path, t) := rfl

theorem writeFile_apply (path : String) (content : List UInt8) (t : FileTree) :
    (FileAccess.writeFile path content : StateM FileTree _) t =
      match t.writable path with
      | .error e => (.error (.opening e), t)
      | .ok location => (.ok (), t.store location content) := rfl

end DeflateHeader.Cli.FileTree
