/-!
# Running an action on a part of a state

A fallible action that keeps its state on failure is an `EStateM ε σ α`: both `.ok` and `.error`
carry the state that was reached, so partial progress stays visible. `focus` runs such an action
on one part of a larger state; `focus_ok` and `focus_error` say what each outcome of the part does
to the whole.
-/

namespace DeflateHeader

universe u

variable {ε σ τ α : Type u}

/-- Runs `act` on the part of the state that `view` shows and `put` replaces. The part is put
back on failure too. -/
def focus (view : σ → τ) (put : τ → σ → σ) (act : EStateM ε τ α) : EStateM ε σ α := fun s =>
  match act (view s) with
  | .ok a t => .ok a (put t s)
  | .error e t => .error e (put t s)

/-- A part that succeeds makes the whole succeed. -/
theorem focus_ok {view : σ → τ} {put : τ → σ → σ} {act : EStateM ε τ α} {s : σ} {a : α} {t : τ}
    (h : act (view s) = .ok a t) : focus view put act s = .ok a (put t s) := by
  simp [focus, h]

/-- A part that fails makes the whole fail, with the state it has reached. -/
theorem focus_error {view : σ → τ} {put : τ → σ → σ} {act : EStateM ε τ α} {s : σ} {e : ε} {t : τ}
    (h : act (view s) = .error e t) : focus view put act s = .error e (put t s) := by
  simp [focus, h]

end DeflateHeader
