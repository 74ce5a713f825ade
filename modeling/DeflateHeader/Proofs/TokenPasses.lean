import DeflateHeader.Proofs.MoreInput
import DeflateHeader.Proofs.TokenLengths
import DeflateHeader.Proofs.TokenReading
import DeflateHeader.Proofs.TokenWriting

/-!
# One pass or two

A run with `earlier` lengths before those of another run does the same as that one, as long as the
other succeeds: lengths that are already there can only turn the failure of a repetition into a success.
`LengthReading.Follows` and `LengthWriting.after` relate the states of the two runs, and each token
keeps them so (`LengthReading.readToken_keepsUp`, `LengthWriting.writeToken_keepsUp`). Only success is
carried over, so every failure of the other run is excused.

A run for `a` lengths that gives no more than `a`, and a run for `b` lengths from where it stopped,
are a run for `a + b` lengths (`LengthReading.readTokens_add`, `LengthWriting.writeTokens_add`). The last
token of the first run ends with the lengths that were asked for, so the sum is not reached
before it, and the second run may go beyond its target as the one pass does.
-/

namespace DeflateHeader

variable {earlier : Lengths} {α : Type}

/-- Every failure of the first run is excused. -/
def AnyFailure (_ : Error) : Prop := True

/-! ## Reading -/

namespace LengthReading

variable {table : LookupTable} {codeLens : Lengths} {k k' : ByteSink} {bs bs' : List UInt8}
  {s s' s₁ s₂ t t' : LengthReading}

/-- The second run is where the first one is, with `earlier` lengths before, and both have written
`bs` since the sinks were `k` and `k'`. -/
structure Follows (earlier : Lengths) (k k' : ByteSink) (bs : List UInt8) (s t : LengthReading) :
    Prop where
  reader_eq : t.reader = s.reader
  lens_eq : t.lens = earlier ++ s.lens
  gets : k.Gets bs s.sink
  gets' : k'.Gets bs t.sink

theorem Follows.restart (h : Follows earlier k k' bs s t) : Follows earlier s.sink t.sink [] s t :=
  ⟨h.reader_eq, h.lens_eq, .refl _, .refl _⟩

theorem Follows.trans (h : Follows earlier k k' bs s t)
    (h' : Follows earlier s.sink t.sink bs' s' t') : Follows earlier k k' (bs ++ bs') s' t' :=
  ⟨h'.reader_eq, h'.lens_eq, h.gets.trans h'.gets, h.gets'.trans h'.gets'⟩

/-- An action with which the second run follows the first one, having written `bs a` more. -/
def KeepsUp (earlier : Lengths) (k k' : ByteSink) (act : EStateM Error LengthReading α)
    (bs : α → List UInt8) : Prop :=
  Lockstep AnyFailure (Follows earlier k k' []) act (fun a => Follows earlier k k' (bs a))
    fun _ _ => True

theorem onReader_keepsUp (act : EStateM Error BitReader α) :
    KeepsUp earlier k k' (onReader act) fun _ => [] :=
  lockstep_focus (R := Eq) (S := fun _ => Eq) (F := Eq) (fun _ _ h => h.reader_eq.symm)
    (lockstep_refl act) (fun _ _ _ _ _ h heq => ⟨heq.symm, h.lens_eq, h.gets, h.gets'⟩)
    fun _ _ _ _ _ _ => trivial

theorem nextSymbol_keepsUp : KeepsUp earlier k k' (nextSymbol table) fun _ => [] := by
  refine lockstep_bind (onReader_keepsUp _) fun _ => ?_
  refine lockstep_bind (onReader_keepsUp _) fun key => ?_
  cases table.lookup key with
  | some symbol => exact lockstep_pure fun _ _ h => h
  | none => exact lockstep_throw fun _ _ _ => trivial

theorem dropCode_keepsUp (symbol : Nat) :
    KeepsUp earlier k k' (dropCode codeLens symbol) fun _ => [] := by
  unfold dropCode
  cases codeLens[symbol]? with
  | some len => exact onReader_keepsUp _
  | none => exact lockstep_throw fun _ _ _ => trivial

theorem accept_keepsUp (hroom : 0 < k'.room) (token : Token) :
    KeepsUp earlier k k' (accept token) fun _ => [token.toByte] := by
  refine lockstep_bind (M := fun _ => Follows earlier k k' [token.toByte]) ?_ fun _ => ?_
  · intro s t h
    have hroom' : 0 < t.sink.room := h.gets'.room_eq.symm ▸ hroom
    obtain ⟨k₂, hpush', hgets'⟩ := ByteSink.push_ok token.toByte hroom'
    rw [onSink_ok hpush']
    cases hpush : onSink (ByteSink.push token.toByte) s with
    | error e s' => exact .excuse trivial
    | ok u s' =>
      obtain ⟨k₁, hsink, rfl⟩ := ok_of_focus hpush
      exact .ok ⟨h.reader_eq, h.lens_eq, h.gets.trans (ByteSink.gets_of_push hsink),
        h.gets'.trans hgets'⟩
  · intro s t h
    apply EndAlike.get_bind
    cases hexp : token.expand s.lens with
    | error e => exact .excuse trivial
    | ok lens =>
      rw [h.lens_eq, Token.expand_append earlier hexp]
      exact .ok ⟨h.reader_eq, rfl, h.gets, h.gets'⟩

/-- What the first run reads as a token, the second one reads too. -/
theorem readToken_keepsUp (table : LookupTable) (codeLens : Lengths) (hroom : 0 < k'.room) :
    KeepsUp earlier k k' (readToken table codeLens) fun t => [t.toByte] := by
  refine lockstep_bind nextSymbol_keepsUp fun symbol => ?_
  refine lockstep_guard trivial (fun s t h hzero => ?_) ?_
  · have := h.gets'.room_eq
    rw [hzero, List.length_nil] at this
    omega
  refine lockstep_bind (dropCode_keepsUp symbol) fun _ => ?_
  cases Token.extraWidth? symbol with
  | none => exact lockstep_throw fun _ _ _ => trivial
  | some width =>
    refine lockstep_guard trivial (fun s t h hprev => ?_) ?_
    · exact ⟨hprev.1, (List.append_eq_nil_iff.mp (h.lens_eq.symm.trans hprev.2)).2⟩
    refine lockstep_bind (onReader_keepsUp _) fun extra => ?_
    cases Token.ofSymbol symbol extra with
    | error e => exact lockstep_throw fun _ _ _ => trivial
    | ok token =>
      exact lockstep_bind (accept_keepsUp hroom token) fun _ => lockstep_pure fun _ _ h => h

/-- What the first run reads, the second one reads too. -/
theorem readTokens_follows {missing n : Nat} (h : readTokens table codeLens missing s = .ok n s')
    (hst : Follows earlier k k' [] s t) (hroom : n ≤ k'.room) :
    ∃ bs t', bs.length = n ∧ readTokens table codeLens missing t = .ok n t' ∧
      Follows earlier k k' bs s' t' := by
  replace h := tokenRun_of_readTokens h
  induction h generalizing t k k' with
  | done s => exact ⟨[], t, rfl, readTokens_zero t, hst⟩
  | @token missing n token s s₁ s' hstep hrest ih =>
    have hend := readToken_keepsUp table codeLens (by omega) s t hst
    rw [hstep] at hend
    obtain ⟨t₁, hstep', hfollows⟩ := hend.ok_inv
    have hleft := hfollows.gets'.room_eq
    rw [List.length_singleton] at hleft
    obtain ⟨bs, t', rfl, hrest', hfollows'⟩ := ih hfollows.restart (by omega)
    exact ⟨token.toByte :: bs, t', rfl, readTokens_step hstep' hrest', hfollows.trans hfollows'⟩

/-- A run that gives no more lengths than were missing, and a run from where it stopped, are one
run. -/
theorem readTokens_add {a b n m : Nat} (h₁ : readTokens table codeLens a s = .ok n s₁)
    (hlen : s₁.lens.length = s.lens.length + a) (h₂ : readTokens table codeLens b s₁ = .ok m s₂) :
    readTokens table codeLens (a + b) s = .ok (n + m) s₂ := by
  replace h₁ := tokenRun_of_readTokens h₁
  induction h₁ with
  | done s => rwa [Nat.zero_add, Nat.zero_add]
  | @token a n t s s' s₁ hstep hrest ih =>
    -- The rest of the run only adds lengths, so this token stays within the first target.
    have hcount := length_of_readToken hstep
    have hle := hrest.le_length
    have hleft : a + 1 - t.count + b = a + b + 1 - t.count := by omega
    have hrun := ih (by omega) h₂
    rw [hleft] at hrun
    rw [Nat.add_right_comm a 1 b, Nat.add_right_comm n 1 m]
    exact readTokens_step hstep hrun

/-- Two passes over the bits are one pass, if the first one ends with as many lengths as it was to
give. -/
theorem readLengths_add {a b n m : Nat} {lens lens' : Lengths} {k k₂ : ByteSink}
    (h₁ : readLengths table codeLens a s = .ok n s₁) (hlen : s₁.lens.length = a)
    (h₂ : readLengths table codeLens b ⟨s₁.reader, k₂, lens⟩ = .ok m s₂) (hroom : n + m ≤ k.room) :
    ∃ bs bs' k', bs.length = n ∧ bs'.length = m ∧ s.sink.Gets bs s₁.sink ∧ k₂.Gets bs' s₂.sink ∧
      k.Gets (bs ++ bs') k' ∧
      readLengths table codeLens (a + b) ⟨s.reader, k, lens'⟩ =
        .ok (n + m) ⟨s₂.reader, k', s₁.lens ++ s₂.lens⟩ := by
  rw [run_readLengths] at h₁ h₂ ⊢
  have hstart₁ : Follows [] s.sink k [] { s with lens := [] } ⟨s.reader, k, []⟩ :=
    ⟨rfl, rfl, .refl _, .refl _⟩
  obtain ⟨bs, t₁, rfl, h₁', hf₁⟩ := readTokens_follows h₁ hstart₁ (by omega)
  have hleft := hf₁.gets'.room_eq
  have hstart₂ : Follows s₁.lens k₂ t₁.sink [] ⟨s₁.reader, k₂, []⟩ t₁ :=
    ⟨hf₁.reader_eq, hf₁.lens_eq.trans (List.append_nil _).symm, .refl _, .refl _⟩
  obtain ⟨bs', t₂, rfl, h₂', hf₂⟩ := readTokens_follows h₂ hstart₂ (by omega)
  refine ⟨bs, bs', t₂.sink, rfl, rfl, hf₁.gets, hf₂.gets, hf₁.gets'.trans hf₂.gets', ?_⟩
  have hcount : t₁.lens.length = ([] : Lengths).length + a := by
    rw [hf₁.lens_eq, List.nil_append, hlen, List.length_nil, Nat.zero_add]
  rw [readTokens_add h₁' hcount h₂']
  rw [← hf₂.reader_eq, ← hf₂.lens_eq]

end LengthReading

/-! ## Writing -/

namespace LengthWriting

variable {table : CodeTable} {codeLens : Lengths} {s s' s₁ s₂ : LengthWriting}

/-- The state of a run that has `earlier` lengths before those of another one. -/
def after (earlier : Lengths) (s : LengthWriting) : LengthWriting := { s with lens := earlier ++ s.lens }

/-- An action with which the second run follows the first one. -/
def KeepsUp (earlier : Lengths) (act : EStateM Error LengthWriting α) : Prop :=
  Lockstep AnyFailure (fun s t => t = s.after earlier) act (fun _ s t => t = s.after earlier)
    fun _ _ => True

theorem onWriter_keepsUp (act : EStateM Error BitWriter α) : KeepsUp earlier (onWriter act) := by
  refine lockstep_focus (R := Eq) (S := fun _ => Eq) (F := Eq) ?_ (lockstep_refl act) ?_ ?_
  · rintro s t rfl
    rfl
  · rintro _ s t w w' rfl rfl
    rfl
  · exact fun _ _ _ _ _ _ => trivial

/-- What the first run writes as a token, the second one writes too. -/
theorem writeToken_keepsUp (earlier : Lengths) (byte : UInt8) :
    KeepsUp earlier (writeToken table codeLens byte) := by
  unfold writeToken
  cases Token.ofByte byte with
  | error e => exact lockstep_throw fun _ _ _ => trivial
  | ok token =>
    dsimp only
    cases codeLens[token.symbol]? with
    | none => exact lockstep_throw fun _ _ _ => trivial
    | some length =>
      dsimp only
      cases codeOf? table token.symbol length.toNat with
      | none => exact lockstep_throw fun _ _ _ => trivial
      | some code =>
        dsimp only
        refine lockstep_guard trivial ?_ ?_
        · rintro s t rfl ⟨hprev, hnil⟩
          exact ⟨hprev, (List.append_eq_nil_iff.mp hnil).2⟩
        refine lockstep_bind (onWriter_keepsUp _) fun _ => ?_
        refine lockstep_bind (onWriter_keepsUp _) fun _ => ?_
        rintro s t rfl
        apply EndAlike.get_bind
        cases hexp : token.expand s.lens with
        | error e => exact .excuse trivial
        | ok lens =>
          have hexp' : token.expand (s.after earlier).lens = .ok (earlier ++ lens) :=
            Token.expand_append earlier hexp
          rw [hexp']
          exact .ok rfl

/-- By induction on the bytes: what the first run writes, the second one writes too. -/
theorem writeTokens_keepsUp (table : CodeTable) (codeLens earlier : Lengths) (bytes : List UInt8)
    (missing : Nat) : KeepsUp earlier (writeTokens table codeLens missing bytes) := by
  induction bytes generalizing missing with
  | nil =>
    cases missing with
    | zero => exact lockstep_pure fun _ _ h => h
    | succ missing => exact lockstep_throw fun _ _ _ => trivial
  | cons byte rest ih =>
    cases missing with
    | zero => exact lockstep_pure fun _ _ h => h
    | succ missing =>
      refine lockstep_bind (writeToken_keepsUp earlier byte) fun token => ?_
      exact lockstep_bind (ih _) fun _ => lockstep_pure fun _ _ h => h

/-- A run that gives no more lengths than were missing, and a run from where it stopped on other bytes,
are one run on the bytes that the first one used and those of the second one. -/
theorem writeTokens_add {a b n m : Nat} {bytes bytes' : List UInt8}
    (h₁ : writeTokens table codeLens a bytes s = .ok n s₁)
    (hlen : s₁.lens.length = s.lens.length + a) (h₂ : writeTokens table codeLens b bytes' s₁ = .ok m s₂) :
    writeTokens table codeLens (a + b) (bytes.take n ++ bytes') s = .ok (n + m) s₂ := by
  replace h₁ := tokenRun_of_writeTokens h₁
  induction h₁ with
  | done bytes s => rwa [Nat.zero_add, Nat.zero_add]
  | @token a n byte bytes t s s' s₁ hstep hrest ih =>
    have hcount := length_of_writeToken hstep
    have hle := hrest.le_length
    have hleft : a + 1 - t.count + b = a + b + 1 - t.count := by omega
    have hrun := ih (by omega) h₂
    rw [hleft] at hrun
    rw [Nat.add_right_comm a 1 b, Nat.add_right_comm n 1 m, List.take_succ_cons, List.cons_append]
    exact writeTokens_step hstep hrun

/-- Two passes over the tokens are one pass, if the first one ends with as many lengths as it was to
give. Tokens that it left alone are not part of the one pass. -/
theorem writeLengths_add {a b n m : Nat} {bytes bytes' : List UInt8} {lens lens' : Lengths}
    (h₁ : writeLengths table codeLens bytes a s = .ok n s₁) (hlen : s₁.lens.length = a)
    (h₂ : writeLengths table codeLens bytes' b ⟨s₁.writer, lens⟩ = .ok m s₂) :
    writeLengths table codeLens (bytes.take n ++ bytes') (a + b) ⟨s.writer, lens'⟩ =
      .ok (n + m) ⟨s₂.writer, s₁.lens ++ s₂.lens⟩ := by
  rw [run_writeLengths] at h₁ h₂ ⊢
  have hend := writeTokens_keepsUp table codeLens s₁.lens bytes' b ⟨s₁.writer, []⟩ _ rfl
  rw [h₂] at hend
  obtain ⟨_, h₂', rfl⟩ := hend.ok_inv
  rw [after, List.append_nil] at h₂'
  exact writeTokens_add (s := ⟨s.writer, []⟩) h₁ (by simpa using hlen) h₂'

end LengthWriting

open LengthReading LengthWriting

/-- Two passes for `a` and for `b` code lengths are one pass for `a + b`, if the first one gives exactly `a`:
with any table, and whatever comes before and after. One pass reads the bits of both and gives their
tokens and their lengths, one after the other, into any buffer with room for the tokens; and it writes the bits
of both from their tokens. The lengths come apart again at `a`. -/
theorem lengths_in_one_pass (codeLens : Lengths) (a b n₁ n₂ : Nat) (l₁ l₂ l : Lengths) :
    (∀ (table : LookupTable) (r : BitReader) (k₁ k₂ k : ByteSink) (s₁ s₂ : LengthReading),
      readLengths table codeLens a ⟨r, k₁, l₁⟩ = .ok n₁ s₁ → s₁.lens.length = a →
      readLengths table codeLens b ⟨s₁.reader, k₂, l₂⟩ = .ok n₂ s₂ → n₁ + n₂ ≤ k.room →
      ∃ bytes₁ bytes₂ k', bytes₁.length = n₁ ∧ bytes₂.length = n₂ ∧ k₁.Gets bytes₁ s₁.sink ∧
        k₂.Gets bytes₂ s₂.sink ∧ k.Gets (bytes₁ ++ bytes₂) k' ∧
        readLengths table codeLens (a + b) ⟨r, k, l⟩ =
          .ok (n₁ + n₂) ⟨s₂.reader, k', s₁.lens ++ s₂.lens⟩ ∧
        (s₁.lens ++ s₂.lens).take a = s₁.lens ∧ (s₁.lens ++ s₂.lens).drop a = s₂.lens) ∧
    ∀ (table : CodeTable) (w : BitWriter) (tokens₁ tokens₂ : List UInt8) (s₁ s₂ : LengthWriting),
      writeLengths table codeLens tokens₁ a ⟨w, l₁⟩ = .ok n₁ s₁ → s₁.lens.length = a →
      writeLengths table codeLens tokens₂ b ⟨s₁.writer, l₂⟩ = .ok n₂ s₂ →
      writeLengths table codeLens (tokens₁.take n₁ ++ tokens₂) (a + b) ⟨w, l⟩ =
          .ok (n₁ + n₂) ⟨s₂.writer, s₁.lens ++ s₂.lens⟩ ∧
        (s₁.lens ++ s₂.lens).take a = s₁.lens ∧ (s₁.lens ++ s₂.lens).drop a = s₂.lens := by
  constructor
  · intro table r k₁ k₂ k s₁ s₂ h₁ hlen h₂ hroom
    obtain ⟨bytes₁, bytes₂, k', hn₁, hn₂, hk₁, hk₂, hk, hok⟩ := readLengths_add h₁ hlen h₂ hroom
    exact ⟨bytes₁, bytes₂, k', hn₁, hn₂, hk₁, hk₂, hk, hok, List.take_left' hlen, List.drop_left' hlen⟩
  · intro table w tokens₁ tokens₂ s₁ s₂ h₁ hlen h₂
    exact ⟨writeLengths_add h₁ hlen h₂, List.take_left' hlen, List.drop_left' hlen⟩

/-- A code with two symbols, 1 and the repetition. -/
def repeatLengths : Lengths := [0, 1, 0, 0, 0, 0, 0, 0, 0, 0, 0, 0, 0, 0, 0, 0, 1]

/-- A 1, and a 1 with three repetitions, which are two lengths more than asked for: in two passes or
in one, read or written, these are the same five bits. -/
theorem lengths_in_one_pass_repeat : ∃ dec sorted enc sorted' s s',
    LookupTable.build repeatLengths (.withCapacity 1, []) = .ok 1 (dec, sorted) ∧
    CodeTable.build repeatLengths (.withSize 17, []) = .ok 1 (enc, sorted') ∧
    readLengths dec repeatLengths (1 + 2) ⟨.ofBytes [0b100], .ofBuffer [9, 9, 9, 9], [7]⟩ = .ok (1 + 2) s ∧
    writeLengths enc repeatLengths [1, 1, 16] (1 + 2) ⟨.ofBuffer [9], [7]⟩ = .ok (1 + 2) s' ∧
    s.reader.consumed = 5 ∧ s.lens = [1] ++ [1, 1, 1, 1] ∧
    s'.writer = ⟨#[], [9], 0b100, 5⟩ ∧ s'.lens = [1] ++ [1, 1, 1, 1] := by
  have hdec : LookupTable.build repeatLengths (.withCapacity 1, []) =
      .ok 1 (⟨2, 1, #[some 1, some 16]⟩, _) := rfl
  have henc : CodeTable.build repeatLengths (.withSize 17, []) =
      .ok 1 (⟨(Array.replicate 16 0).push 1⟩, _) := rfl
  have hread₁ : readLengths ⟨2, 1, #[some 1, some 16]⟩ repeatLengths 1
      ⟨.ofBytes [0b100], .ofBuffer [0], []⟩ = .ok 1 ⟨⟨[], 1, 0b10, 7⟩, ⟨#[1], []⟩, [1]⟩ :=
    readTokens_step (t := .length 1) rfl (readTokens_zero _)
  have hread₂ : readLengths ⟨2, 1, #[some 1, some 16]⟩ repeatLengths 2
      ⟨⟨[], 1, 0b10, 7⟩, .ofBuffer [0, 0], []⟩ =
      .ok 2 ⟨⟨[], 1, 0, 3⟩, ⟨#[1, 16], []⟩, [1, 1, 1, 1]⟩ :=
    readTokens_step (t := .length 1) rfl <|
      readTokens_step (t := .repeatPrevious 0) rfl (readTokens_zero _)
  obtain ⟨hreads, hwrites⟩ := lengths_in_one_pass repeatLengths 1 2 1 2 [] [] [7]
  obtain ⟨_, _, k', -, -, -, -, -, hok, -⟩ :=
    hreads _ _ _ _ (.ofBuffer [9, 9, 9, 9]) _ _ hread₁ rfl hread₂ (by decide)
  have hwrite := hwrites ⟨(Array.replicate 16 0).push 1⟩ (.ofBuffer [9]) [1, 0, 0] [1, 16]
    ⟨⟨#[], [9], 0, 1⟩, [1]⟩ ⟨⟨#[], [9], 0b100, 5⟩, [1, 1, 1, 1]⟩ rfl rfl rfl
  exact ⟨_, _, _, _, _, _, hdec, henc, hok, hwrite.1, rfl, rfl, rfl, rfl⟩

end DeflateHeader
