import DeflateHeader.Proofs.BitWriting

/-!
# Fields that fit

A writer takes one field after the other, each as a whole, until one does not fit. The fields before this
one are `Bits.fitting room fields`, the longest first part that there is room for
(`Bits.isPrefix_fitting_iff`).

`Puts writer w fields r Q result` says how a run ends that writes `fields` and then ends with `r`, if the
buffer is large enough: as soon as a field does not fit, nothing more is written and the outcome is the
lack of room. A run that would fail for another reason later on is covered too, since `r` may be any
outcome. There is one rule for each building block of an action, as for a triple with `Q` after it.
-/

namespace DeflateHeader

namespace Bits

variable {room : Nat} {fields before : List (List Bool)}

/-- The fields before the first one that does not fit. -/
def fitting : Nat → List (List Bool) → List (List Bool)
  | _, [] => []
  | room, field :: fields =>
    if field.length ≤ room then field :: fitting (room - field.length) fields else []

theorem fitting_append_of_le (h : before.flatten.length ≤ room) (after : List (List Bool)) :
    fitting room (before ++ after) =
      before ++ fitting (room - before.flatten.length) after := by
  induction before generalizing room with
  | nil => rfl
  | cons field before ih =>
    rw [List.flatten_cons, List.length_append] at h
    rw [List.cons_append, fitting, if_pos (by omega), ih (by omega), List.cons_append,
      List.flatten_cons, List.length_append, Nat.sub_sub]

theorem fitting_append_of_lt (h : room < before.flatten.length) (after : List (List Bool)) :
    fitting room (before ++ after) = fitting room before := by
  induction before generalizing room with
  | nil => exact absurd h (Nat.not_lt_zero _)
  | cons field before ih =>
    rw [List.flatten_cons, List.length_append] at h
    rw [List.cons_append, fitting, fitting]
    by_cases hfits : field.length ≤ room
    · rw [if_pos hfits, if_pos hfits, ih (by omega)]
    · rw [if_neg hfits, if_neg hfits]

theorem fitting_of_le (h : fields.flatten.length ≤ room) : fitting room fields = fields := by
  have happ := fitting_append_of_le h []
  rwa [List.append_nil, fitting, List.append_nil] at happ

/-- The fields that fit are the longest first part with no more bits than there is room for. -/
theorem isPrefix_fitting_iff :
    before <+: fitting room fields ↔ before <+: fields ∧ before.flatten.length ≤ room := by
  induction fields generalizing room before with
  | nil =>
    rw [fitting, List.prefix_nil]
    exact ⟨by rintro rfl; exact ⟨rfl, Nat.zero_le _⟩, And.left⟩
  | cons field fields ih =>
    cases before with
    | nil => simp
    | cons first before =>
      rw [fitting, List.cons_prefix_cons, List.flatten_cons, List.length_append]
      by_cases hfits : field.length ≤ room
      · rw [if_pos hfits, List.cons_prefix_cons, ih]
        constructor
        · rintro ⟨rfl, hpre, hle⟩
          exact ⟨⟨rfl, hpre⟩, by omega⟩
        · rintro ⟨⟨rfl, hpre⟩, hle⟩
          exact ⟨rfl, hpre, by omega⟩
      · rw [if_neg hfits, List.prefix_nil]
        constructor
        · exact fun h => nomatch h
        · rintro ⟨⟨rfl, -⟩, hle⟩
          omega

theorem flatten_fitting_isPrefix (room : Nat) (fields : List (List Bool)) :
    (fitting room fields).flatten <+: fields.flatten := by
  obtain ⟨more, hmore⟩ := (isPrefix_fitting_iff.mp (List.prefix_refl (fitting room fields))).1
  exact ⟨more.flatten, by rw [← List.flatten_append, hmore]⟩

end Bits

/-! ## Runs -/

variable {σ τ α β : Type} {writer : σ → BitWriter} {w : BitWriter} {fields : List (List Bool)}

/-- How a run ends that began with the writer `w`: it has appended the fields before the first one that does
not fit, and its outcome is `r` unless there is such a field. If it succeeds it ends in a state with `Q`. -/
structure Puts (writer : σ → BitWriter) (w : BitWriter) (fields : List (List Bool))
    (r : Except Error α) (Q : σ → Prop) (result : EStateM.Result Error σ α) : Prop where
  appends : w.Appends (Bits.fitting w.room fields).flatten (writer (finalState result))
  outcome_of_le : fields.flatten.length ≤ w.room → outcome result = r
  outcome_of_lt : w.room < fields.flatten.length → outcome result = .error .insufficientOutput
  post : ∀ a s, result = .ok a s → Q s

namespace Puts

variable {r : Except Error α} {Q : σ → Prop} {result : EStateM.Result Error σ α}
  {x : EStateM Error σ α} {f : α → EStateM Error σ β} {s s' : σ} {a : α} {e : Error}

theorem appends_of_le (h : Puts writer w fields r Q result)
    (hroom : fields.flatten.length ≤ w.room) :
    w.Appends fields.flatten (writer (finalState result)) := by
  have ha := h.appends
  rwa [Bits.fitting_of_le hroom] at ha

/-- With room for all fields, a run that is to succeed does. -/
theorem ok_of_le (h : Puts writer w fields (.ok a) Q result) (hroom : fields.flatten.length ≤ w.room) :
    ∃ s, result = .ok a s ∧ w.Appends fields.flatten (writer s) ∧ Q s := by
  obtain ⟨s, rfl⟩ := eq_ok_of_outcome (h.outcome_of_le hroom)
  exact ⟨s, rfl, h.appends_of_le hroom, h.post a s rfl⟩

/-- Without that room, every run lacks it. -/
theorem error_of_lt (h : Puts writer w fields r Q result) (hroom : w.room < fields.flatten.length) :
    ∃ s, result = .error .insufficientOutput s ∧
      w.Appends (Bits.fitting w.room fields).flatten (writer s) := by
  obtain ⟨s, rfl⟩ := eq_error_of_outcome (h.outcome_of_lt hroom)
  exact ⟨s, rfl, h.appends⟩

/-- A run that succeeds and leaves its writer alone. -/
theorem of_ok (hrun : x s = .ok a s') (hw : w.WellFormed) (h : writer s' = w) (hQ : Q s') :
    Puts writer w [] (.ok a) Q (x s) := by
  rw [hrun]
  refine ⟨h.symm ▸ .refl hw, fun _ => rfl, fun hlt => absurd hlt (Nat.not_lt_zero _), ?_⟩
  intro a s hok
  cases hok
  exact hQ

/-- A run that fails and leaves its writer alone. -/
theorem of_error (hrun : x s = .error e s') (hw : w.WellFormed) (h : writer s' = w) :
    Puts writer w [] (.error e) Q (x s) := by
  rw [hrun]
  exact ⟨h.symm ▸ .refl hw, fun _ => rfl, fun hlt => absurd hlt (Nat.not_lt_zero _), by simp⟩

/-- A step, and what comes after it if all of its fields fit. -/
theorem bind {before after : List (List Bool)} {r : Except Error β} {R : σ → Prop}
    (hx : Puts writer w before (.ok a) Q (x s))
    (hf : ∀ s', Q s' → w.Appends before.flatten (writer s') →
      Puts writer (writer s') after r R (f a s')) :
    Puts writer w (before ++ after) r R ((x >>= f) s) := by
  have hlen : (before ++ after).flatten.length = before.flatten.length + after.flatten.length := by
    rw [List.flatten_append, List.length_append]
  rcases Nat.lt_or_ge w.room before.flatten.length with hroom | hroom
  · obtain ⟨s', hxs, ha⟩ := hx.error_of_lt hroom
    rw [run_bind_error hxs]
    refine ⟨?_, fun hle => absurd hle (by omega), fun _ => rfl, by simp⟩
    rwa [Bits.fitting_append_of_lt hroom]
  · obtain ⟨s', hxs, ha, hQ⟩ := hx.ok_of_le hroom
    have hafter := hf s' hQ ha
    have hrest := ha.room_eq
    rw [run_bind_ok hxs]
    refine ⟨?_, fun hle => hafter.outcome_of_le (by omega),
      fun hlt => hafter.outcome_of_lt (by omega), hafter.post⟩
    rw [Bits.fitting_append_of_le hroom, List.flatten_append, ← hrest, Nat.add_sub_cancel]
    exact ha.trans hafter.appends

/-- A step that fails however much room there is. -/
theorem bind_error {R : σ → Prop} (hx : Puts writer w fields (.error e) Q (x s)) :
    Puts writer w fields (.error e) R ((x >>= f) s) := by
  obtain ⟨ha, hle, hlt, -⟩ := hx
  cases hxs : x s with
  | ok a s' =>
    rw [hxs] at hle hlt
    rcases Nat.lt_or_ge w.room fields.flatten.length with hroom | hroom
    · cases hlt hroom
    · cases hle hroom
  | error e' s' =>
    rw [hxs] at ha hle hlt
    rw [run_bind_error hxs]
    exact ⟨ha, fun hroom => by cases hle hroom; rfl, fun hroom => by cases hlt hroom; rfl, by simp⟩

/-- A step of which only the value is changed. -/
theorem bind_pure {g : α → β} (hx : Puts writer w fields r Q (x s)) :
    Puts writer w fields (g <$> r) Q ((x >>= fun a => pure (g a)) s) := by
  obtain ⟨ha, hle, hlt, hpost⟩ := hx
  cases hxs : x s with
  | ok a s' =>
    rw [hxs] at ha hle hlt
    rw [run_bind_ok hxs]
    refine ⟨ha, fun hroom => by rw [← hle hroom]; rfl, fun hroom => (by cases hlt hroom), ?_⟩
    intro b s hok
    cases hok
    exact hpost a _ hxs
  | error e s' =>
    rw [hxs] at ha hle hlt
    rw [run_bind_error hxs]
    exact ⟨ha, fun hroom => by rw [← hle hroom]; rfl, fun hroom => by cases hlt hroom; rfl, by simp⟩

/-- A run on the part of the state that has the writer. -/
theorem focus {view : σ → τ} {put : τ → σ → σ} {act : EStateM Error τ α} {inner : τ → BitWriter}
    {R : τ → Prop} (h : Puts inner w fields r R (act (view s)))
    (hput : ∀ t, writer (put t s) = inner t) (hpost : ∀ t, R t → Q (put t s)) :
    Puts writer w fields r Q (focus view put act s) := by
  obtain ⟨ha, hle, hlt, hR⟩ := h
  cases hact : act (view s) with
  | ok a t =>
    rw [hact] at ha hle hlt
    rw [focus_ok hact]
    refine ⟨hput t ▸ ha, hle, hlt, ?_⟩
    intro b s' hok
    cases hok
    exact hpost t (hR a t hact)
  | error e t =>
    rw [hact] at ha hle hlt
    rw [focus_error hact]
    exact ⟨hput t ▸ ha, hle, hlt, by simp⟩

end Puts

/-- One field is written if it fits. -/
theorem BitWriter.puts_put {n : Nat} (hw : w.WellFormed) (hn : n ≤ 32) (v : Nat) :
    Puts id w [Bits.ofNat n v] (.ok ()) (fun _ => True) (put n v w) := by
  have hlen : [Bits.ofNat n v].flatten.length = n := by simp
  rcases Nat.lt_or_ge w.room n with hroom | hroom
  · rw [put_error hw hn hroom]
    refine ⟨?_, fun hle => absurd hle (by omega), fun _ => rfl, fun _ _ _ => trivial⟩
    rw [Bits.fitting, Bits.length_ofNat, if_neg (Nat.not_le.mpr hroom)]
    exact .refl hw
  · obtain ⟨w', hrun, ha⟩ := put_ok (v := v) hw hn hroom
    rw [hrun]
    refine ⟨?_, fun _ => rfl, fun hlt => absurd hlt (by omega), fun _ _ _ => trivial⟩
    rw [Bits.fitting_of_le (hlen.symm ▸ hroom), List.flatten_singleton]
    exact ha

end DeflateHeader
