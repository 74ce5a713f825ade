import DeflateHeader.Proofs.Outcomes

/-!
# Two runs of one action

`Lockstep excused P x Q E` compares two runs of the action `x` from states that the relation `P`
holds of. Either both succeed with the same value and in states related by `Q`, or both fail with
the same error and in states related by `E`, or the first one fails with an error that is `excused`.
If no error is excused, the outcome does not show in which of two related states a run began. An
excuse is for a second run that has more input than the first: that the first one lacks input says
nothing about the second.

A proof follows the action step by step. `lockstep_bind` joins two steps by the relation of the states
in the middle, and `EndAlike.get_bind` is for a step that depends on what it reads.
-/

namespace DeflateHeader

universe u

variable {ε σ τ α β : Type u}

/-- How the results of two runs compare. -/
inductive EndAlike (excused : ε → Prop) (Q : α → σ → σ → Prop) (E : σ → σ → Prop) :
    EStateM.Result ε σ α → EStateM.Result ε σ α → Prop
  | ok {a : α} {s t : σ} (h : Q a s t) : EndAlike excused Q E (.ok a s) (.ok a t)
  | error {e : ε} {s t : σ} (h : E s t) : EndAlike excused Q E (.error e s) (.error e t)
  | excuse {e : ε} {s : σ} {y : EStateM.Result ε σ α} (h : excused e) :
      EndAlike excused Q E (.error e s) y

/-- Two runs of `x` from states related by `P` end alike. -/
def Lockstep (excused : ε → Prop) (P : σ → σ → Prop) (x : EStateM ε σ α) (Q : α → σ → σ → Prop)
    (E : σ → σ → Prop) : Prop :=
  ∀ s t, P s t → EndAlike excused Q E (x s) (x t)

variable {excused : ε → Prop} {P : σ → σ → Prop} {Q Q' : α → σ → σ → Prop} {E E' : σ → σ → Prop}

/-! ## Results -/

namespace EndAlike

variable {x y : EStateM.Result ε σ α}

theorem mono (h : EndAlike excused Q E x y) (hQ : ∀ a s t, Q a s t → Q' a s t)
    (hE : ∀ s t, E s t → E' s t) : EndAlike excused Q' E' x y := by
  cases h with
  | ok h => exact .ok (hQ _ _ _ h)
  | error h => exact .error (hE _ _ h)
  | excuse h => exact .excuse h

/-- What holds of both states at the end may be added. -/
theorem keeping {R : σ → Prop} (h : EndAlike excused Q E x y) (hx : R (finalState x))
    (hy : R (finalState y)) :
    EndAlike excused (fun a s t => Q a s t ∧ R s ∧ R t) (fun s t => E s t ∧ R s ∧ R t) x y := by
  cases h with
  | ok h => exact .ok ⟨h, hx, hy⟩
  | error h => exact .error ⟨h, hx, hy⟩
  | excuse h => exact .excuse h

/-- Both runs have the same outcome, unless the first one is excused. -/
theorem outcome_eq (h : EndAlike excused Q E x y) :
    outcome y = outcome x ∨ ∃ e, excused e ∧ outcome x = .error e := by
  cases h with
  | ok _ => exact .inl rfl
  | error _ => exact .inl rfl
  | excuse h => exact .inr ⟨_, h, rfl⟩

theorem ok_inv {a : α} {s : σ} (h : EndAlike excused Q E (.ok a s) y) :
    ∃ t, y = .ok a t ∧ Q a s t := by
  cases h with
  | ok h => exact ⟨_, rfl, h⟩

theorem error_inv {e : ε} {s : σ} (h : EndAlike excused Q E (.error e s) y) (he : ¬ excused e) :
    ∃ t, y = .error e t ∧ E s t := by
  cases h with
  | error h => exact ⟨_, rfl, h⟩
  | excuse h => exact absurd h he

/-- Two steps that end alike, each followed by a step of its own. -/
theorem bind {M : α → σ → σ → Prop} {Q : β → σ → σ → Prop} {x y : EStateM ε σ α} {s t : σ}
    {f g : α → EStateM ε σ β} (hx : EndAlike excused M E (x s) (y t))
    (hf : ∀ a s t, M a s t → EndAlike excused Q E (f a s) (g a t)) :
    EndAlike excused Q E ((x >>= f) s) ((y >>= g) t) := by
  rw [run_bind, run_bind]
  generalize x s = x' at hx
  generalize y t = y' at hx
  cases hx with
  | ok h => exact hf _ _ _ h
  | error h => exact .error h
  | excuse h => exact .excuse h

/-- What follows a `get` may differ in what was read. -/
theorem get_bind {s t : σ} {f g : σ → EStateM ε σ α} (h : EndAlike excused Q E (f s s) (g t t)) :
    EndAlike excused Q E ((get >>= f) s) ((get >>= g) t) := h

end EndAlike

/-! ## Building blocks -/

theorem lockstep_mono {x : EStateM ε σ α} (h : Lockstep excused P x Q E)
    (hQ : ∀ a s t, Q a s t → Q' a s t) (hE : ∀ s t, E s t → E' s t) : Lockstep excused P x Q' E' :=
  fun s t hst => (h s t hst).mono hQ hE

/-- Two runs from one state are one run. -/
theorem lockstep_refl (x : EStateM ε σ α) : Lockstep excused Eq x (fun _ => Eq) Eq := by
  rintro s t rfl
  cases x s with
  | ok a s' => exact .ok rfl
  | error e s' => exact .error rfl

theorem lockstep_pure {a : α} (h : ∀ s t, P s t → Q a s t) :
    Lockstep excused P (pure a : EStateM ε σ α) Q E :=
  fun s t hst => .ok (h s t hst)

theorem lockstep_throw {e : ε} (h : ∀ s t, P s t → E s t) :
    Lockstep excused P (throw e : EStateM ε σ α) Q E :=
  fun s t hst => .error (h s t hst)

theorem lockstep_modify {g : σ → σ} {Q : PUnit → σ → σ → Prop} (h : ∀ s t, P s t → Q ⟨⟩ (g s) (g t)) :
    Lockstep excused P (modify g : EStateM ε σ PUnit) Q E :=
  fun s t hst => .ok (h s t hst)

theorem lockstep_bind {M : α → σ → σ → Prop} {Q : β → σ → σ → Prop} {x : EStateM ε σ α}
    {f : α → EStateM ε σ β} (hx : Lockstep excused P x M E)
    (hf : ∀ a, Lockstep excused (M a) (f a) Q E) : Lockstep excused P (x >>= f) Q E :=
  fun s t hst => (hx s t hst).bind hf

theorem lockstep_discard {M : σ → σ → Prop} {x : EStateM ε σ α}
    (hx : Lockstep excused P x (fun _ => M) E) :
    Lockstep excused P (discard x) (fun _ => M) E := by
  intro s t hst
  have h := hx s t hst
  show EndAlike excused (fun _ => M) E (EStateM.map _ x s) (EStateM.map _ x t)
  unfold EStateM.map
  generalize x s = x' at h
  generalize x t = y' at h
  cases h with
  | ok h => exact .ok h
  | error h => exact .error h
  | excuse h => exact .excuse h

/-- What every run keeps by itself may be added. -/
theorem lockstep_keeping {R : σ → Prop} {x : EStateM ε σ α} (hP : ∀ s t, P s t → R s ∧ R t)
    (hk : Keeps R x) (hx : Lockstep excused P x Q E) :
    Lockstep excused P x (fun a s t => Q a s t ∧ R s ∧ R t) (fun s t => E s t ∧ R s ∧ R t) := by
  intro s t hst
  obtain ⟨hs, ht⟩ := hP s t hst
  exact (hx s t hst).keeping (hk s hs) (hk t ht)

theorem lockstep_ite {c : Prop} [Decidable c] {x y : EStateM ε σ α}
    (hx : Lockstep excused P x Q E) (hy : Lockstep excused P y Q E) :
    Lockstep excused P (if c then x else y) Q E := by
  by_cases h : c
  · rw [if_pos h]
    exact hx
  · rw [if_neg h]
    exact hy

/-- A check of something that both states show, and what follows if it does not fail. -/
theorem lockstep_check {c : σ → Prop} [DecidablePred c] {e : ε} {f : PUnit → EStateM ε σ α}
    (hc : ∀ s t, P s t → (c s ↔ c t)) (hE : ∀ s t, P s t → E s t)
    (hf : Lockstep excused P (f ⟨⟩) Q E) :
    Lockstep excused P (get >>= fun s => if c s then throw e >>= f else f ⟨⟩) Q E := by
  intro s t hst
  apply EndAlike.get_bind
  by_cases h : c s
  · rw [if_pos h, if_pos ((hc s t hst).mp h)]
    exact .error (hE s t hst)
  · rw [if_neg h, if_neg (mt (hc s t hst).mpr h)]
    exact hf s t hst

/-- A check whose failure is excused and which the second run passes if the first one does. -/
theorem lockstep_guard {c : σ → Prop} [DecidablePred c] {e : ε} {f : PUnit → EStateM ε σ α}
    (he : excused e) (hc : ∀ s t, P s t → c t → c s) (hf : Lockstep excused P (f ⟨⟩) Q E) :
    Lockstep excused P (get >>= fun s => if c s then throw e >>= f else f ⟨⟩) Q E := by
  intro s t hst
  apply EndAlike.get_bind
  by_cases h : c s
  · rw [if_pos h]
    exact .excuse he
  · rw [if_neg h, if_neg (mt (hc s t hst) h)]
    exact hf s t hst

/-- An action on a part of the state. -/
theorem EndAlike.focus {view : σ → τ} {put : τ → σ → σ} {act act' : EStateM ε τ α}
    {R : α → τ → τ → Prop} {F : τ → τ → Prop} {s t : σ}
    (h : EndAlike excused R F (act (view s)) (act' (view t)))
    (hok : ∀ a u v, R a u v → Q a (put u s) (put v t)) (herr : ∀ u v, F u v → E (put u s) (put v t)) :
    EndAlike excused Q E (DeflateHeader.focus view put act s)
      (DeflateHeader.focus view put act' t) := by
  unfold DeflateHeader.focus
  generalize act (view s) = x at h
  generalize act' (view t) = y at h
  cases h with
  | ok h => exact .ok (hok _ _ _ h)
  | error h => exact .error (herr _ _ h)
  | excuse h => exact .excuse h

theorem lockstep_focus {view : σ → τ} {put : τ → σ → σ} {act : EStateM ε τ α} {R : τ → τ → Prop}
    {S : α → τ → τ → Prop} {F : τ → τ → Prop} (hview : ∀ s t, P s t → R (view s) (view t))
    (hact : Lockstep excused R act S F)
    (hok : ∀ a s t u v, P s t → S a u v → Q a (put u s) (put v t))
    (herr : ∀ s t u v, P s t → F u v → E (put u s) (put v t)) :
    Lockstep excused P (focus view put act) Q E := by
  intro s t hst
  refine (hact _ _ (hview s t hst)).focus ?_ ?_
  · exact fun a u v h => hok a s t u v hst h
  · exact fun u v h => herr s t u v hst h

end DeflateHeader
