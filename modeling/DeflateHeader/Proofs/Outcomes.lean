import DeflateHeader.Focus

/-!
# What a run of an action ends in

Rules for an action applied to a state. A proof about an operation follows it step by step with
`run_bind_ok` and `run_bind_error`, or takes a successful run apart with `ok_of_bind`.

`Keeps P act` says that `act` does not leave `P`, whether it succeeds or fails. It is closed under
the building blocks of an action, so what holds in every reachable state follows from the steps
that write to it. `FailsOnly E act s` says which errors a run from `s` can end in; its rule for two
steps hands on what the first one did.

`observed` runs many actions in a row, whatever becomes of each. If each of them answers alike in related
states and keeps them related, so do all of them (`observed_alike`).
-/

namespace DeflateHeader

universe u

variable {ε σ τ α β : Type u} {s s' : σ} {a : α} {e : ε}

/-! ## Building blocks -/

@[simp] theorem run_pure : (pure a : EStateM ε σ α) s = .ok a s := rfl

@[simp] theorem run_throw : (throw e : EStateM ε σ α) s = .error e s := rfl

@[simp] theorem run_get : (get : EStateM ε σ σ) s = .ok s s := rfl

@[simp] theorem run_set : (set s' : EStateM ε σ PUnit) s = .ok ⟨⟩ s' := rfl

@[simp] theorem run_modify (f : σ → σ) : (modify f : EStateM ε σ PUnit) s = .ok ⟨⟩ (f s) := rfl

@[simp] theorem run_ite (c : Prop) [Decidable c] (x y : EStateM ε σ α) :
    (if c then x else y) s = if c then x s else y s := by
  split <;> rfl

theorem run_bind (x : EStateM ε σ α) (f : α → EStateM ε σ β) :
    (x >>= f) s = match x s with
      | .ok a s' => f a s'
      | .error e s' => .error e s' := rfl

theorem run_map (f : α → β) (x : EStateM ε σ α) :
    (f <$> x) s = match x s with
      | .ok a s' => .ok (f a) s'
      | .error e s' => .error e s' := rfl

variable {x : EStateM ε σ α} {f : α → EStateM ε σ β}

theorem run_bind_ok (h : x s = .ok a s') : (x >>= f) s = f a s' := by
  rw [run_bind, h]

theorem run_bind_error (h : x s = .error e s') : (x >>= f) s = .error e s' := by
  rw [run_bind, h]

theorem run_discard_ok (h : x s = .ok a s') : discard x s = .ok ⟨⟩ s' := by
  show EStateM.map _ x s = _
  simp [EStateM.map, h]

theorem run_discard_error (h : x s = .error e s') : discard x s = .error e s' := by
  show EStateM.map _ x s = _
  simp [EStateM.map, h]

/-- A successful run of two steps is a successful run of each. -/
theorem ok_of_bind {b : β} {s'' : σ} (h : (x >>= f) s = .ok b s'') :
    ∃ a s', x s = .ok a s' ∧ f a s' = .ok b s'' := by
  rw [run_bind] at h
  split at h
  · exact ⟨_, _, ‹_›, h⟩
  · cases h

/-- The same for steps without a state. -/
theorem ok_of_bind_except {x : Except ε α} {f : α → Except ε β} {b : β} (h : x >>= f = .ok b) :
    ∃ a, x = .ok a ∧ f a = .ok b := by
  cases x with
  | ok a => exact ⟨a, rfl, h⟩
  | error e => cases h

/-- A run of two steps fails at the first one, or at the second one after the first. -/
theorem error_of_bind (h : (x >>= f) s = .error e s') :
    x s = .error e s' ∨ ∃ a s₁, x s = .ok a s₁ ∧ f a s₁ = .error e s' := by
  rw [run_bind] at h
  cases hx : x s with
  | ok a s₁ =>
    rw [hx] at h
    exact .inr ⟨a, s₁, rfl, h⟩
  | error e₁ s₁ =>
    rw [hx] at h
    cases h
    exact .inl rfl

theorem ok_of_discard {u : PUnit} (h : discard x s = .ok u s') : ∃ a, x s = .ok a s' := by
  change EStateM.map _ x s = _ at h
  unfold EStateM.map at h
  split at h
  · cases h; exact ⟨_, ‹_›⟩
  · cases h

/-- The state that a run ends in, whatever its outcome. -/
def finalState : EStateM.Result ε σ α → σ
  | .ok _ s => s
  | .error _ s => s

@[simp] theorem finalState_ok : finalState (.ok a s : EStateM.Result ε σ α) = s := rfl

@[simp] theorem finalState_error : finalState (.error e s : EStateM.Result ε σ α) = s := rfl

/-- What a run returns, without the state that it ends in. -/
def outcome : EStateM.Result ε σ α → Except ε α
  | .ok a _ => .ok a
  | .error e _ => .error e

@[simp] theorem outcome_ok : outcome (.ok a s : EStateM.Result ε σ α) = .ok a := rfl

@[simp] theorem outcome_error : outcome (.error e s : EStateM.Result ε σ α) = .error e := rfl

theorem eq_ok_of_outcome {result : EStateM.Result ε σ α} (h : outcome result = .ok a) :
    ∃ s, result = .ok a s := by
  cases result with
  | ok a' s =>
    cases h
    exact ⟨s, rfl⟩
  | error e s => cases h

theorem eq_error_of_outcome {result : EStateM.Result ε σ α} (h : outcome result = .error e) :
    ∃ s, result = .error e s := by
  cases result with
  | ok a s => cases h
  | error e' s =>
    cases h
    exact ⟨s, rfl⟩

section Focus

variable {view : σ → τ} {put : τ → σ → σ} {act : EStateM ε τ α}

theorem ok_of_focus (h : focus view put act s = .ok a s') :
    ∃ t, act (view s) = .ok a t ∧ s' = put t s := by
  unfold focus at h
  split at h
  · cases h; exact ⟨_, ‹_›, rfl⟩
  · cases h

variable {ρ : Type u} {x : ρ} {t t' : τ}

theorem focus_snd_ok (h : act t = .ok a t') :
    focus Prod.snd (fun t s => (s.1, t)) act (x, t) = .ok a (x, t') := by
  unfold focus
  rw [h]

theorem focus_snd_error (h : act t = .error e t') :
    focus Prod.snd (fun t s => (s.1, t)) act (x, t) = .error e (x, t') := by
  unfold focus
  rw [h]

end Focus

/-! ## What a run does not leave -/

/-- Every run from a state with `P` ends in a state with `P`. -/
def Keeps (P : σ → Prop) (x : EStateM ε σ α) : Prop := ∀ s, P s → P (finalState (x s))

variable {P : σ → Prop}

theorem keeps_ok (h : Keeps P x) (hs : P s) (hrun : x s = .ok a s') : P s' := by
  have hfinal := h s hs
  rwa [hrun] at hfinal

theorem keeps_pure : Keeps P (pure a : EStateM ε σ α) := fun _ h => h

theorem keeps_throw : Keeps P (throw e : EStateM ε σ α) := fun _ h => h

theorem keeps_get : Keeps P (get : EStateM ε σ σ) := fun _ h => h

theorem keeps_modify {g : σ → σ} (h : ∀ s, P s → P (g s)) :
    Keeps P (modify g : EStateM ε σ PUnit) := h

theorem keeps_bind (hx : Keeps P x) (hf : ∀ a, Keeps P (f a)) : Keeps P (x >>= f) := by
  intro s hs
  have h := hx s hs
  rw [run_bind]
  cases hxs : x s with
  | ok a s' => rw [hxs] at h; exact hf a s' h
  | error e s' => rw [hxs] at h; exact h

/-- What follows a `get` may use what holds of the state. -/
theorem keeps_get_bind {f : σ → EStateM ε σ β} (h : ∀ s, P s → P (finalState (f s s))) :
    Keeps P (get >>= f) := h

theorem keeps_discard (hx : Keeps P x) : Keeps P (discard x) := by
  intro s hs
  have h := hx s hs
  show P (finalState (EStateM.map _ x s))
  unfold EStateM.map
  split <;> simp_all

theorem keeps_ite {c : Prop} [Decidable c] {x y : EStateM ε σ α} (hx : Keeps P x)
    (hy : Keeps P y) : Keeps P (if c then x else y) := by
  split <;> assumption

/-- An action on a part of the state, if the whole is kept whenever the part is. -/
theorem keeps_focus {view : σ → τ} {put : τ → σ → σ} {Q : τ → Prop} {act : EStateM ε τ α}
    (hview : ∀ s, P s → Q (view s)) (hact : Keeps Q act) (hput : ∀ s t, P s → Q t → P (put t s)) :
    Keeps P (focus view put act) := by
  intro s hs
  have h := hact (view s) (hview s hs)
  unfold focus
  split <;> rename_i heq <;> rw [heq] at h <;> exact hput s _ hs h

/-! ## What a run returns -/

/-- Every value that a run returns has `R`. -/
def Returns (R : α → Prop) (x : EStateM ε σ α) : Prop := ∀ s a s', x s = .ok a s' → R a

theorem returns_pure {R : α → Prop} (h : R a) : Returns R (pure a : EStateM ε σ α) := by
  intro s a' s' hrun
  cases hrun
  exact h

theorem returns_throw {R : α → Prop} : Returns R (throw e : EStateM ε σ α) := by
  intro s a s' hrun
  cases hrun

theorem returns_bind {R : β → Prop} {S : α → Prop} (hx : Returns S x)
    (hf : ∀ a, S a → Returns R (f a)) : Returns R (x >>= f) := by
  intro s b s'' hrun
  obtain ⟨a, s', ha, hb⟩ := ok_of_bind hrun
  exact hf a (hx s a s' ha) s' b s'' hb

/-- The value of the first step does not matter. -/
theorem returns_bind_of {R : β → Prop} (hf : ∀ a, Returns R (f a)) : Returns R (x >>= f) :=
  returns_bind (S := fun _ => True) (fun _ _ _ _ => trivial) fun a _ => hf a

/-! ## How a run fails -/

/-- If the run of `x` from `s` fails, its error has `E`. -/
def FailsOnly (E : ε → Prop) (x : EStateM ε σ α) (s : σ) : Prop := ∀ e s', x s = .error e s' → E e

variable {E : ε → Prop}

theorem failsOnly_ok (h : x s = .ok a s') : FailsOnly E x s := by
  intro e s₁ hrun
  rw [h] at hrun
  cases hrun

theorem failsOnly_error (h : x s = .error e s') (he : E e) : FailsOnly E x s := by
  intro e' s₁ hrun
  rw [h] at hrun
  cases hrun
  exact he

theorem failsOnly_pure : FailsOnly E (pure a : EStateM ε σ α) s := failsOnly_ok rfl

theorem FailsOnly.mono {E' : ε → Prop} (h : FailsOnly E x s) (hE : ∀ e, E e → E' e) :
    FailsOnly E' x s :=
  fun e s' hrun => hE e (h e s' hrun)

/-- A run of two steps fails with the first one, or with the second one after the first. -/
theorem failsOnly_bind (hx : FailsOnly E x s)
    (hf : ∀ a s', x s = .ok a s' → FailsOnly E (f a) s') : FailsOnly E (x >>= f) s := by
  intro e s'' hrun
  rw [run_bind] at hrun
  cases hxs : x s with
  | ok a s' =>
    rw [hxs] at hrun
    exact hf a s' hxs e s'' hrun
  | error e' s' =>
    rw [hxs] at hrun
    cases hrun
    exact hx _ _ hxs

/-- A first step that succeeds leaves the second one to fail. -/
theorem failsOnly_bind_ok (h : x s = .ok a s') (hf : FailsOnly E (f a) s') :
    FailsOnly E (x >>= f) s :=
  fun e s'' hrun => hf e s'' ((run_bind_ok h).symm.trans hrun)

theorem failsOnly_discard (hx : FailsOnly E x s) : FailsOnly E (discard x) s := by
  intro e s' hrun
  change EStateM.map _ x s = _ at hrun
  unfold EStateM.map at hrun
  split at hrun
  · cases hrun
  · cases hrun
    exact hx _ _ ‹_›

theorem failsOnly_focus {view : σ → τ} {put : τ → σ → σ} {act : EStateM ε τ α}
    (h : FailsOnly E act (view s)) : FailsOnly E (focus view put act) s := by
  intro e s' hrun
  unfold focus at hrun
  split at hrun
  · cases hrun
  · cases hrun
    exact h _ _ ‹_›

/-! ## Actions in a row -/

section InARow

variable {ι : Type u}

/-- Runs an action for each item, whatever becomes of those before, and returns what each has
returned. -/
def observed (act : ι → EStateM ε σ α) (items : List ι) : EStateM ε σ (List (Except ε α)) :=
  items.mapM fun i => observing (act i)

theorem run_observing (x : EStateM ε σ α) (s : σ) :
    observing x s = .ok (outcome (x s)) (finalState (x s)) := by
  show EStateM.tryCatch _ _ s = _
  unfold EStateM.tryCatch
  rw [run_bind]
  cases x s <;> rfl

theorem observed_cons {act : ι → EStateM ε σ α} {i : ι} {items : List ι}
    {answers : List (Except ε α)} (h : observed act items (finalState (act i s)) = .ok answers s') :
    observed act (i :: items) s = .ok (outcome (act i s) :: answers) s' := by
  unfold observed at h ⊢
  rw [List.mapM_cons, run_bind_ok (run_observing (act i) s), run_bind_ok h]
  rfl

/-- By induction on the items: if each action answers alike in related states and leads to related
states, so do all of them in a row. -/
theorem observed_alike {R : σ → τ → Prop} {x : ι → EStateM ε σ α} {y : ι → EStateM ε τ α}
    {items : List ι} {t : τ} (h : R s t)
    (hstep : ∀ i ∈ items, ∀ s t, R s t →
      outcome (y i t) = outcome (x i s) ∧ R (finalState (x i s)) (finalState (y i t))) :
    ∃ answers s' t', observed x items s = .ok answers s' ∧ observed y items t = .ok answers t' ∧
      R s' t' := by
  induction items generalizing s t with
  | nil => exact ⟨[], s, t, rfl, rfl, h⟩
  | cons i items ih =>
    obtain ⟨hout, hnext⟩ := hstep i List.mem_cons_self s t h
    obtain ⟨answers, s', t', hx, hy, hend⟩ :=
      ih hnext fun j hj => hstep j (List.mem_cons_of_mem i hj)
    exact ⟨outcome (x i s) :: answers, s', t', observed_cons hx, hout ▸ observed_cons hy, hend⟩

end InARow

end DeflateHeader
