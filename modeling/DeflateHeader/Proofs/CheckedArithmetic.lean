import DeflateHeader.Error
import DeflateHeader.Proofs.Outcomes
import Mathlib.Algebra.Group.Int.Defs
import Mathlib.Algebra.Group.Nat.Defs

/-!
# Arithmetic with machine words

The codec computes with exact numbers. `Checked` holds the operations that a machine offers instead:
each of them gives the exact result if it fits the word, and nothing otherwise. A shift must be by
less than the width of the word, a difference must not be negative, and a shift to the left must not
lose a bit. In an action, nothing is the fault `outOfRange`.

For each operation there is a condition under which it is exact. An algorithm written with these
operations that is shown to be the exact one never overflows.
-/

namespace DeflateHeader

variable {σ α β : Type}

/-- In an action, the lack of a result is a fault. -/
instance : MonadLift Option (EStateM Error σ) where
  monadLift
    | some a => pure a
    | none => throw (.fault .outOfRange)

@[simp] theorem liftM_some (a : α) : (liftM (some a) : EStateM Error σ α) = pure a := rfl

@[simp] theorem liftM_none :
    (liftM (none : Option α) : EStateM Error σ α) = throw (.fault .outOfRange) := rfl

namespace Checked

/-- A number, if it fits a word of `width` bits. -/
def fit (width n : Nat) : Option Nat := if n < 2 ^ width then some n else none

/-- A sum in a word of `width` bits. -/
def add (width a b : Nat) : Option Nat := fit width (a + b)

/-- A product in a word of `width` bits. -/
def mul (width a b : Nat) : Option Nat := fit width (a * b)

/-- A difference of unsigned words. -/
def sub (a b : Nat) : Option Nat := if b ≤ a then some (a - b) else none

/-- A shift to the left in a word of `width` bits. -/
def shl (width a n : Nat) : Option Nat := if n < width then fit width (a <<< n) else none

/-- A shift to the right in a word of `width` bits. -/
def shr (width a n : Nat) : Option Nat := if n < width then some (a >>> n) else none

/-- A number, if it fits a signed word of 64 bits. -/
def fitSigned (n : Int) : Option Int := if -2 ^ 63 ≤ n ∧ n < 2 ^ 63 then some n else none

/-- The array with another element at an index within it. -/
def store (xs : Array α) (i : Nat) (x : α) : Option (Array α) :=
  if i < xs.size then some (xs.setIfInBounds i x) else none

/-- An index below the given size. -/
def index (size i : Nat) : Option Nat := if i < size then some i else none

/-- The first `n` elements, all of which must be there. -/
def front (xs : List α) (n : Nat) : Option (List α) :=
  if n ≤ xs.length then some (xs.take n) else none

/-- What comes after the first `n` elements, all of which must be there. -/
def tail (xs : List α) (n : Nat) : Option (List α) :=
  if n ≤ xs.length then some (xs.drop n) else none

section Exact

variable {width a b n : Nat}

theorem add_eq (h : a + b < 2 ^ width) : add width a b = some (a + b) := if_pos h

theorem mul_eq (h : a * b < 2 ^ width) : mul width a b = some (a * b) := if_pos h

theorem sub_eq (h : b ≤ a) : sub a b = some (a - b) := if_pos h

theorem sub_eq_none (h : a < b) : sub a b = none := if_neg (Nat.not_le.mpr h)

theorem shl_eq (hn : n < width) (h : a <<< n < 2 ^ width) : shl width a n = some (a <<< n) := by
  rw [shl, if_pos hn, fit, if_pos h]

theorem shr_eq (hn : n < width) : shr width a n = some (a >>> n) := if_pos hn

/-- A power of two below the range of the word. -/
theorem shl_one_eq (hn : n < width) : shl width 1 n = some (2 ^ n) := by
  rw [shl_eq hn (by rw [Nat.one_shiftLeft]; exact Nat.pow_lt_pow_right (by decide) hn),
    Nat.one_shiftLeft]

theorem fitSigned_eq {n : Int} (h : -2 ^ 63 ≤ n ∧ n < 2 ^ 63) : fitSigned n = some n := if_pos h

theorem store_eq {xs : Array α} {x : α} (h : n < xs.size) :
    store xs n x = some (xs.setIfInBounds n x) := if_pos h

theorem index_eq {size i : Nat} (h : i < size) : index size i = some i := if_pos h

theorem front_eq {xs : List α} (h : n ≤ xs.length) : front xs n = some (xs.take n) := if_pos h

theorem tail_eq {xs : List α} (h : n ≤ xs.length) : tail xs n = some (xs.drop n) := if_pos h

end Exact

/-! ## Two actions with one run -/

variable {x y : EStateM Error σ α} {f g : α → EStateM Error σ β} {s : σ}

/-- Two runs are equal if their first steps are and what follows from there. -/
theorem run_bind_congr (h : y s = x s) (hf : ∀ a s', x s = .ok a s' → g a s' = f a s') :
    (y >>= g) s = (x >>= f) s := by
  rw [run_bind, run_bind, h]
  cases hrun : x s with
  | ok a s' => exact hf a s' hrun
  | error e s' => rfl

/-- A step that both runs have in common. -/
theorem run_bind_same (hf : ∀ a s', x s = .ok a s' → g a s' = f a s') :
    (x >>= g) s = (x >>= f) s :=
  run_bind_congr rfl hf

/-- An operation that is exact is no step at all. -/
theorem run_lift {o : Option α} {a : α} (h : o = some a) :
    ((liftM o : EStateM Error σ α) >>= g) s = g a s := by
  rw [h]
  rfl

theorem run_discard_congr (h : y s = x s) : (discard y) s = (discard x) s := by
  show EStateM.map _ y s = EStateM.map _ x s
  unfold EStateM.map
  rw [h]

theorem run_focus_congr {τ : Type} {view : σ → τ} {put : τ → σ → σ} {act act' : EStateM Error τ α}
    (h : act' (view s) = act (view s)) : focus view put act' s = focus view put act s := by
  unfold focus
  rw [h]

end Checked
end DeflateHeader
