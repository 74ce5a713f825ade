import DeflateHeader.Block
import DeflateHeader.Proofs.Lockstep
import DeflateHeader.Token.Reading
import Mathlib.Tactic.SplitIfs

/-!
# A reader with more input

`BitReader.extend more r` is the reader `r` with the bytes `more` after the end of its input. A step
of the extended reader does what it does on `r`, with the same result, unless `r` lacks input
(`CutShort`). This is so for every reader, also for one that no sequence of steps leads to, as no step
asks how many bytes are left beyond those that it takes.

`Extended more` is the relation between the two readers that all steps preserve, and
`LengthReading.Extended more` that between two sequences of code lengths that are being read.
With `more = []` both are equality and no failure is excused, so the same lemmas say that a step does
the same in the same state.
-/

namespace DeflateHeader

/-- A failure for lack of input, of a run that has less input than the one beside it. -/
def CutShort (more : List UInt8) (e : Error) : Prop := more ≠ [] ∧ e = .insufficientInput

theorem not_cutShort_nil (e : Error) : ¬ CutShort [] e := fun h => h.1 rfl

variable {more : List UInt8} {α : Type}

/-- A run with more input has the same outcome, unless the other one lacked input. -/
theorem EndAlike.unless_lacking {σ : Type} {Q : α → σ → σ → Prop} {E : σ → σ → Prop}
    {x y : EStateM.Result Error σ α} (h : EndAlike (CutShort more) Q E x y) :
    outcome x = .error .insufficientInput ∨ outcome y = outcome x := by
  rcases h.outcome_eq with heq | ⟨e, ⟨-, rfl⟩, he⟩
  · exact .inr heq
  · exact .inl he

namespace BitReader

/-- The reader with `more` after the end of its input. -/
def extend (more : List UInt8) (r : BitReader) : BitReader := { r with unread := r.unread ++ more }

@[simp] theorem extend_nil (r : BitReader) : r.extend [] = r := by
  rw [extend, List.append_nil]

@[simp] theorem consumed_extend (r : BitReader) : (r.extend more).consumed = r.consumed := rfl

@[simp] theorem cached_extend (r : BitReader) : (r.extend more).cached = r.cached := rfl

theorem extend_ofBytes (bytes : List UInt8) : (ofBytes bytes).extend more = ofBytes (bytes ++ more) := rfl

/-- The second reader has `more` input than the first one. -/
def Extended (more : List UInt8) (r t : BitReader) : Prop := t = r.extend more

/-- An action that does the same for a reader with more input. -/
def Extends (more : List UInt8) (act : EStateM Error BitReader α) : Prop :=
  Lockstep (CutShort more) (Extended more) act (fun _ => Extended more) (Extended more)

theorem pull_extend {k : Nat} {r r' : BitReader} (h : pull k r = some r') :
    pull k (r.extend more) = some (r'.extend more) := by
  induction k generalizing r with
  | zero =>
    cases h
    rfl
  | succ k ih =>
    obtain ⟨unread, pulled, cache, cached⟩ := r
    cases unread with
    | nil => cases h
    | cons byte rest => exact ih h

theorem ensure_extends (n : Nat) : Extends more (ensure n) := by
  rintro r t rfl
  unfold ensure
  by_cases hn : 32 < n
  · rw [if_pos hn]
    exact .error rfl
  rw [if_neg hn]
  apply EndAlike.get_bind
  cases hp : r.pull ((n - r.cached + 7) / 8) with
  | some r' =>
    have hp' : (r.extend more).pull ((n - (r.extend more).cached + 7) / 8) =
        some (r'.extend more) := pull_extend hp
    rw [hp']
    exact .ok rfl
  | none =>
    by_cases hmore : more = []
    · subst hmore
      rw [extend_nil, hp]
      exact .error (extend_nil r).symm
    · exact .excuse ⟨hmore, rfl⟩

/-- All outcomes of `peek`, for any reader. -/
theorem run_peek (n : Nat) (r : BitReader) :
    peek n r = if 32 < n then .error (.fault .wideField) r
      else if r.cached < n then .error (.fault .uncachedBits) r
      else .ok (r.cache &&& lowMask n).toNat r := by
  unfold peek
  rw [run_bind_ok run_get]
  split_ifs <;> rfl

/-- All outcomes of `drop`, for any reader. -/
theorem run_drop (n : Nat) (r : BitReader) :
    drop n r = if 32 < n then .error (.fault .wideField) r
      else if r.cached < n then .error (.fault .uncachedBits) r
      else .ok () { r with cache := r.cache >>> UInt64.ofNat n, cached := r.cached - n } := by
  unfold drop
  rw [run_bind_ok run_get]
  split_ifs <;> rfl

theorem peek_extends (n : Nat) : Extends more (peek n) := by
  rintro r t rfl
  rw [run_peek, run_peek, cached_extend]
  split_ifs
  · exact .error rfl
  · exact .error rfl
  · exact .ok rfl

theorem drop_extends (n : Nat) : Extends more (drop n) := by
  rintro r t rfl
  rw [run_drop, run_drop, cached_extend]
  split_ifs
  · exact .error rfl
  · exact .error rfl
  · exact .ok rfl

theorem take_extends (n : Nat) : Extends more (take n) := by
  refine lockstep_bind (ensure_extends n) fun _ => ?_
  refine lockstep_bind (peek_extends n) fun value => ?_
  exact lockstep_bind (drop_extends n) fun _ => lockstep_pure fun _ _ h => h

end BitReader

theorem BlockHeader.read_extends : BitReader.Extends more BlockHeader.read := by
  refine lockstep_bind (BitReader.ensure_extends 3) fun _ => ?_
  refine lockstep_bind (BitReader.peek_extends 1) fun flag => ?_
  refine lockstep_bind (BitReader.drop_extends 1) fun _ => ?_
  refine lockstep_bind (BitReader.peek_extends 2) fun bits => ?_
  refine lockstep_bind (BitReader.drop_extends 2) fun _ => ?_
  cases BlockKind.ofBits bits with
  | ok kind => exact lockstep_pure fun _ _ h => h
  | error e => exact lockstep_throw fun _ _ h => h

/-! ## Code lengths -/

namespace LengthReading

/-- The second sequence of code lengths is read from a reader with `more` input. -/
def Extended (more : List UInt8) (s t : LengthReading) : Prop :=
  t = { s with reader := s.reader.extend more }

/-- An action that does the same with more input. -/
def Extends (more : List UInt8) (act : EStateM Error LengthReading α) : Prop :=
  Lockstep (CutShort more) (Extended more) act (fun _ => Extended more) (Extended more)

theorem onReader_extends {act : EStateM Error BitReader α} (h : BitReader.Extends more act) :
    Extends more (onReader act) := by
  refine lockstep_focus (R := BitReader.Extended more) ?_ h ?_ ?_
  · rintro s t rfl
    rfl
  · rintro a s t u v rfl rfl
    rfl
  · rintro s t u v rfl rfl
    rfl

theorem onSink_extends (act : EStateM Error ByteSink α) : Extends more (onSink act) := by
  refine lockstep_focus (R := Eq) (S := fun _ => Eq) (F := Eq) ?_ (lockstep_refl act) ?_ ?_
  · rintro s t rfl
    rfl
  · rintro a s t u v rfl rfl
    rfl
  · rintro s t u v rfl rfl
    rfl

theorem nextSymbol_extends (table : LookupTable) : Extends more (nextSymbol table) := by
  refine lockstep_bind (onReader_extends (BitReader.ensure_extends _)) fun _ => ?_
  refine lockstep_bind (onReader_extends (BitReader.peek_extends _)) fun key => ?_
  cases table.lookup key with
  | some symbol => exact lockstep_pure fun _ _ h => h
  | none => exact lockstep_throw fun _ _ h => h

theorem dropCode_extends (codeLens : Lengths) (symbol : Nat) :
    Extends more (dropCode codeLens symbol) := by
  unfold dropCode
  cases codeLens[symbol]? with
  | some len => exact onReader_extends (BitReader.drop_extends _)
  | none => exact lockstep_throw fun _ _ h => h

theorem accept_extends (token : Token) : Extends more (accept token) := by
  refine lockstep_bind (onSink_extends _) fun _ => ?_
  rintro s t rfl
  apply EndAlike.get_bind
  dsimp only
  cases token.expand s.lens with
  | ok lens => exact .ok rfl
  | error e => exact .error rfl

theorem readToken_extends (table : LookupTable) (codeLens : Lengths) :
    Extends more (readToken table codeLens) := by
  refine lockstep_bind (nextSymbol_extends table) fun symbol => ?_
  refine lockstep_check ?_ (fun _ _ h => h) ?_
  · rintro s t rfl
    exact Iff.rfl
  refine lockstep_bind (dropCode_extends codeLens symbol) fun _ => ?_
  cases Token.extraWidth? symbol with
  | none => exact lockstep_throw fun _ _ h => h
  | some width =>
    refine lockstep_check ?_ (fun _ _ h => h) ?_
    · rintro s t rfl
      exact Iff.rfl
    refine lockstep_bind (onReader_extends (BitReader.take_extends width)) fun extra => ?_
    cases Token.ofSymbol symbol extra with
    | error e => exact lockstep_throw fun _ _ h => h
    | ok token => exact lockstep_bind (accept_extends token) fun _ => lockstep_pure fun _ _ h => h

/-- By induction on the lengths that are missing: each token does the same in both runs. -/
theorem readTokens_extends (table : LookupTable) (codeLens : Lengths) (missing : Nat) :
    Extends more (readTokens table codeLens missing) := by
  induction missing using Nat.strongRecOn with
  | ind missing ih =>
    cases missing with
    | zero =>
      rw [readTokens]
      exact lockstep_pure fun _ _ h => h
    | succ missing =>
      rw [readTokens]
      refine lockstep_bind (readToken_extends table codeLens) fun token => ?_
      have hlt : missing + 1 - token.count < missing + 1 := by
        have := token.count_pos
        omega
      exact lockstep_bind (ih _ hlt) fun _ => lockstep_pure fun _ _ h => h

theorem readLengths_extends (table : LookupTable) (codeLens : Lengths) (target : Nat) :
    Lockstep (CutShort more)
      (fun s t => t.reader = s.reader.extend more ∧ t.sink = s.sink)
      (readLengths table codeLens target) (fun _ => Extended more) (Extended more) := by
  refine lockstep_bind (lockstep_modify ?_) fun _ => readTokens_extends table codeLens target
  rintro s t ⟨hr, hk⟩
  show LengthReading.mk t.reader t.sink [] = _
  rw [hr, hk]

end LengthReading
end DeflateHeader
