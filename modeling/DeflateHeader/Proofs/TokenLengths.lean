import DeflateHeader.Proofs.Outcomes
import DeflateHeader.Proofs.TokenRuns
import DeflateHeader.Token.Reading
import DeflateHeader.Token.Writing

/-!
# How many lengths come out of a run

A run that succeeds is a `TokenRun`: one token after the other, until no length is missing. Whatever the
table, the bits and the buffers are, a token appends as many lengths as it stands for, in both
directions. So a run for `target` lengths gives no more than 138 lengths beyond them
(`LengthReading.length_le_of_readTokens`, `LengthWriting.length_le_of_writeTokens`), and the lengths
that a build is given are always few enough for its table.
-/

namespace DeflateHeader

theorem Token.length_of_expand {t : Token} {lens lens' : Lengths} (h : t.expand lens = .ok lens') :
    lens'.length = lens.length + t.count := by
  obtain ⟨value, -, rfl⟩ := value_of_expand h
  rw [List.length_append, List.length_replicate]

namespace LengthReading

variable {table : LookupTable} {codeLens : Lengths} {s s' : LengthReading} {α : Type}

theorem keeps_lens_onReader (lens : Lengths) (act : EStateM Error BitReader α) :
    Keeps (fun s => s.lens = lens) (onReader act) :=
  keeps_focus (Q := fun _ => True) (fun _ _ => trivial) (fun _ _ => trivial) fun _ _ hs _ => hs

theorem keeps_lens_onSink (lens : Lengths) (act : EStateM Error ByteSink α) :
    Keeps (fun s => s.lens = lens) (onSink act) :=
  keeps_focus (Q := fun _ => True) (fun _ _ => trivial) (fun _ _ => trivial) fun _ _ hs _ => hs

theorem keeps_lens_nextSymbol (lens : Lengths) :
    Keeps (fun s => s.lens = lens) (nextSymbol table) := by
  refine keeps_bind (keeps_lens_onReader lens _) fun _ => ?_
  refine keeps_bind (keeps_lens_onReader lens _) fun key => ?_
  cases table.lookup key with
  | some symbol => exact keeps_pure
  | none => exact keeps_throw

theorem keeps_lens_dropCode (lens : Lengths) (symbol : Nat) :
    Keeps (fun s => s.lens = lens) (dropCode codeLens symbol) := by
  unfold dropCode
  cases codeLens[symbol]? with
  | some len => exact keeps_lens_onReader lens _
  | none => exact keeps_throw

theorem length_of_accept {t : Token} (h : accept t s = .ok () s') :
    s'.lens.length = s.lens.length + t.count := by
  unfold accept at h
  obtain ⟨_, s₁, h₁, h⟩ := ok_of_bind h
  have hlens := keeps_ok (keeps_lens_onSink s.lens _) rfl h₁
  rw [run_bind_ok run_get] at h
  cases hexp : t.expand s₁.lens with
  | error e =>
    rw [hexp] at h
    cases h
  | ok lens =>
    rw [hexp] at h
    cases h
    exact hlens ▸ Token.length_of_expand hexp

theorem length_of_readToken {t : Token} (h : readToken table codeLens s = .ok t s') :
    s'.lens.length = s.lens.length + t.count := by
  unfold readToken at h
  obtain ⟨symbol, s₁, h₁, h⟩ := ok_of_bind h
  have hl₁ := keeps_ok (keeps_lens_nextSymbol s.lens) rfl h₁
  rw [run_bind_ok run_get] at h
  by_cases hroom : s₁.sink.room = 0
  · rw [if_pos hroom] at h
    cases h
  rw [if_neg hroom] at h
  obtain ⟨_, s₂, h₂, h⟩ := ok_of_bind h
  have hl₂ := keeps_ok (keeps_lens_dropCode s.lens symbol) hl₁ h₂
  cases hw : Token.extraWidth? symbol with
  | none =>
    rw [hw] at h
    cases h
  | some width =>
    rw [hw] at h
    dsimp only at h
    rw [run_bind_ok run_get] at h
    by_cases hprev : symbol = 16 ∧ s₂.lens = []
    · rw [if_pos hprev] at h
      cases h
    rw [if_neg hprev] at h
    obtain ⟨extra, s₃, h₃, h⟩ := ok_of_bind h
    have hl₃ := keeps_ok (keeps_lens_onReader s.lens _) hl₂ h₃
    cases ht : Token.ofSymbol symbol extra with
    | error e =>
      rw [ht] at h
      cases h
    | ok token =>
      rw [ht] at h
      obtain ⟨_, s₄, h₄, h⟩ := ok_of_bind h
      cases h
      rw [length_of_accept h₄, hl₃]

theorem readTokens_succ (missing : Nat) :
    readTokens table codeLens (missing + 1) = do
      let token ← readToken table codeLens
      let more ← readTokens table codeLens (missing + 1 - token.count)
      return more + 1 := by
  rw [readTokens]

theorem readTokens_zero (s : LengthReading) : readTokens table codeLens 0 s = .ok 0 s := by
  rw [readTokens]
  rfl

/-- A token that is read, and a run for what it leaves missing. -/
theorem readTokens_step {missing n : Nat} {t : Token} {s₁ : LengthReading}
    (hstep : readToken table codeLens s = .ok t s₁)
    (hrest : readTokens table codeLens (missing + 1 - t.count) s₁ = .ok n s') :
    readTokens table codeLens (missing + 1) s = .ok (n + 1) s' := by
  rw [readTokens_succ, run_bind_ok hstep, run_bind_ok hrest]
  rfl

/-- The tokens of a run that succeeds: with so many lengths missing, so many tokens are read. -/
inductive TokenRun (table : LookupTable) (codeLens : Lengths) :
    Nat → Nat → LengthReading → LengthReading → Prop
  | done (s : LengthReading) : TokenRun table codeLens 0 0 s s
  | token {missing n : Nat} {t : Token} {s s₁ s' : LengthReading}
      (hstep : readToken table codeLens s = .ok t s₁)
      (hrest : TokenRun table codeLens (missing + 1 - t.count) n s₁ s') :
      TokenRun table codeLens (missing + 1) (n + 1) s s'

theorem tokenRun_of_readTokens {missing n : Nat} (h : readTokens table codeLens missing s = .ok n s') :
    TokenRun table codeLens missing n s s' := by
  induction missing using Nat.strongRecOn generalizing s n with
  | ind missing ih =>
    cases missing with
    | zero =>
      rw [readTokens_zero] at h
      cases h
      exact .done _
    | succ missing =>
      rw [readTokens_succ] at h
      obtain ⟨token, s₁, hstep, h⟩ := ok_of_bind h
      obtain ⟨more, s₂, hrest, h⟩ := ok_of_bind h
      cases h
      have hpos := token.count_pos
      exact .token hstep (ih _ (by omega) hrest)

/-- Only the last token can go past the target. -/
theorem length_le_of_readTokens {missing n : Nat} (h : readTokens table codeLens missing s = .ok n s') :
    s'.lens.length ≤ s.lens.length + missing + 138 := by
  replace h := tokenRun_of_readTokens h
  induction h with
  | done s => omega
  | @token missing n t s s₁ s' hstep hrest ih =>
    have hle := t.count_le
    have hlen := length_of_readToken hstep
    by_cases hlast : missing + 1 ≤ t.count
    · rw [Nat.sub_eq_zero_of_le hlast] at hrest
      cases hrest
      omega
    · omega

/-- A run ends when no length is missing. -/
theorem TokenRun.le_length {missing n : Nat} (h : TokenRun table codeLens missing n s s') :
    s.lens.length + missing ≤ s'.lens.length := by
  induction h with
  | done s => exact Nat.le_refl _
  | token hstep hrest ih =>
    have hlen := length_of_readToken hstep
    omega

end LengthReading

namespace LengthWriting

variable {table : CodeTable} {codeLens : Lengths} {s s' : LengthWriting} {α : Type}

theorem keeps_lens_onWriter (lens : Lengths) (act : EStateM Error BitWriter α) :
    Keeps (fun s => s.lens = lens) (onWriter act) :=
  keeps_focus (Q := fun _ => True) (fun _ _ => trivial) (fun _ _ => trivial) fun _ _ hs _ => hs

/-- A token that was written is two fields and the lengths that it stands for. -/
theorem ok_of_writeToken {byte : UInt8} {t : Token}
    (h : writeToken table codeLens byte s = .ok t s') :
    ∃ (n code : Nat) (w₁ w₂ : BitWriter) (lens : Lengths),
      BitWriter.put n code s.writer = .ok () w₁ ∧
      BitWriter.put t.extraWidth t.extra w₁ = .ok () w₂ ∧
      t.expand s.lens = .ok lens ∧ s' = ⟨w₂, lens⟩ := by
  unfold writeToken at h
  cases hb : Token.ofByte byte with
  | error e =>
    rw [hb] at h
    cases h
  | ok token =>
    rw [hb] at h
    dsimp only at h
    cases hl : codeLens[token.symbol]? with
    | none =>
      rw [hl] at h
      cases h
    | some length =>
      rw [hl] at h
      dsimp only at h
      cases hc : codeOf? table token.symbol length.toNat with
      | none =>
        rw [hc] at h
        cases h
      | some code =>
        rw [hc] at h
        dsimp only at h
        rw [run_bind_ok run_get] at h
        by_cases hprev : token.isRepeatPrevious ∧ s.lens = []
        · rw [if_pos hprev] at h
          cases h
        rw [if_neg hprev] at h
        obtain ⟨_, s₁, h₁, h⟩ := ok_of_bind h
        obtain ⟨w₁, hw₁, rfl⟩ := ok_of_focus h₁
        obtain ⟨_, s₂, h₂, h⟩ := ok_of_bind h
        obtain ⟨w₂, hw₂, rfl⟩ := ok_of_focus h₂
        rw [run_bind_ok run_get] at h
        cases hexp : token.expand s.lens with
        | error e =>
          rw [hexp] at h
          cases h
        | ok lens =>
          rw [hexp] at h
          cases h
          exact ⟨length.toNat, code, w₁, w₂, lens, hw₁, hw₂, hexp, rfl⟩

theorem length_of_writeToken {byte : UInt8} {t : Token}
    (h : writeToken table codeLens byte s = .ok t s') :
    s'.lens.length = s.lens.length + t.count := by
  obtain ⟨_, _, _, _, lens, -, -, hexp, rfl⟩ := ok_of_writeToken h
  exact Token.length_of_expand hexp

/-- A token that is written, and a run for what it leaves missing. -/
theorem writeTokens_step {missing n : Nat} {byte : UInt8} {rest : List UInt8} {t : Token}
    {s₁ : LengthWriting} (hstep : writeToken table codeLens byte s = .ok t s₁)
    (hrest : writeTokens table codeLens (missing + 1 - t.count) rest s₁ = .ok n s') :
    writeTokens table codeLens (missing + 1) (byte :: rest) s = .ok (n + 1) s' := by
  rw [writeTokens, run_bind_ok hstep, run_bind_ok hrest]
  rfl

/-- The tokens of a run that succeeds: with so many lengths missing, so many tokens are written from the
bytes. -/
inductive TokenRun (table : CodeTable) (codeLens : Lengths) :
    Nat → List UInt8 → Nat → LengthWriting → LengthWriting → Prop
  | done (bytes : List UInt8) (s : LengthWriting) : TokenRun table codeLens 0 bytes 0 s s
  | token {missing n : Nat} {byte : UInt8} {rest : List UInt8} {t : Token} {s s₁ s' : LengthWriting}
      (hstep : writeToken table codeLens byte s = .ok t s₁)
      (hrest : TokenRun table codeLens (missing + 1 - t.count) rest n s₁ s') :
      TokenRun table codeLens (missing + 1) (byte :: rest) (n + 1) s s'

theorem tokenRun_of_writeTokens {missing n : Nat} {bytes : List UInt8}
    (h : writeTokens table codeLens missing bytes s = .ok n s') :
    TokenRun table codeLens missing bytes n s s' := by
  induction bytes generalizing missing s n with
  | nil =>
    cases missing with
    | zero =>
      cases h
      exact .done _ _
    | succ missing => cases h
  | cons byte rest ih =>
    cases missing with
    | zero =>
      cases h
      exact .done _ _
    | succ missing =>
      rw [writeTokens] at h
      obtain ⟨token, s₁, hstep, h⟩ := ok_of_bind h
      obtain ⟨more, s₂, hrest, h⟩ := ok_of_bind h
      cases h
      exact .token hstep (ih hrest)

/-- Only the last token can go past the target. -/
theorem length_le_of_writeTokens {missing n : Nat} {bytes : List UInt8}
    (h : writeTokens table codeLens missing bytes s = .ok n s') :
    s'.lens.length ≤ s.lens.length + missing + 138 := by
  replace h := tokenRun_of_writeTokens h
  induction h with
  | done bytes s => omega
  | @token missing n byte rest t s s₁ s' hstep hrest ih =>
    have hle := t.count_le
    have hlen := length_of_writeToken hstep
    by_cases hlast : missing + 1 ≤ t.count
    · rw [Nat.sub_eq_zero_of_le hlast] at hrest
      cases hrest
      omega
    · omega

/-- A run ends when no length is missing. -/
theorem TokenRun.le_length {missing n : Nat} {bytes : List UInt8}
    (h : TokenRun table codeLens missing bytes n s s') :
    s.lens.length + missing ≤ s'.lens.length := by
  induction h with
  | done bytes s => exact Nat.le_refl _
  | token hstep hrest ih =>
    have hlen := length_of_writeToken hstep
    omega

end LengthWriting

end DeflateHeader
