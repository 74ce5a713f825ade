import DeflateHeader.Proofs.CheckedBits
import DeflateHeader.Proofs.CheckedCodes
import DeflateHeader.Proofs.TokenLengths
import DeflateHeader.Proofs.TokenReading

/-!
# Tokens with machine words

The two loops over run-length tokens in checked arithmetic. Here a token is a `Run`, a symbol with its
run length: the machine keeps the length of the run in a byte, and goes from it to the byte of the
puff buffer and to the extra bits by sums and differences of bytes. `Run.ofToken` is the
run of a token, and each of these computations gives for it what the token has.

`readTokens` and `writeTokens` run like the loops they check, for a bounded reader and for a writer
that can count 64 more bits for each length that is missing.
-/

namespace DeflateHeader

namespace LengthReading

variable {table : LookupTable} {codeLens : Lengths} {α : Type}

/-- The reader is within its bounds. -/
abbrev Bounded (s : LengthReading) : Prop := s.reader.Bounded

theorem keeps_bounded_onReader {act : EStateM Error BitReader α} (h : Keeps BitReader.Bounded act) :
    Keeps Bounded (onReader act) :=
  keeps_focus (fun _ hs => hs) h fun _ _ _ ht => ht

theorem keeps_bounded_onSink (act : EStateM Error ByteSink α) : Keeps Bounded (onSink act) :=
  keeps_focus (Q := fun _ => True) (fun _ _ => trivial) (fun _ _ => trivial) fun _ _ hs _ => hs

theorem keeps_bounded_nextSymbol : Keeps Bounded (nextSymbol table) := by
  refine keeps_bind (keeps_bounded_onReader (BitReader.keeps_bounded_ensure _)) fun _ => ?_
  refine keeps_bind (keeps_bounded_onReader (BitReader.keeps_bounded_peek _)) fun key => ?_
  cases table.lookup key with
  | some symbol => exact keeps_pure
  | none => exact keeps_throw

theorem keeps_bounded_dropCode (symbol : Nat) : Keeps Bounded (dropCode codeLens symbol) := by
  unfold dropCode
  cases codeLens[symbol]? with
  | some len => exact keeps_bounded_onReader (BitReader.keeps_bounded_drop _)
  | none => exact keeps_throw

theorem keeps_bounded_accept (t : Token) : Keeps Bounded (accept t) := by
  refine keeps_bind (keeps_bounded_onSink _) fun _ => keeps_get_bind fun s hs => ?_
  cases t.expand s.lens <;> exact hs

theorem keeps_bounded_readExtra (symbol width : Nat) : Keeps Bounded (readExtra symbol width) := by
  refine keeps_bind (keeps_bounded_onReader (BitReader.keeps_bounded_take _)) fun extra => ?_
  cases Token.ofSymbol symbol extra with
  | error e => exact keeps_throw
  | ok t => exact keeps_bind (keeps_bounded_accept t) fun _ => keeps_pure

theorem keeps_bounded_readToken : Keeps Bounded (readToken table codeLens) := by
  refine keeps_bind keeps_bounded_nextSymbol fun symbol => keeps_get_bind fun s hs => ?_
  by_cases hroom : s.sink.room = 0
  · rw [if_pos hroom]
    exact hs
  rw [if_neg hroom]
  refine keeps_bind (keeps_bounded_dropCode symbol) (fun _ => ?_) s hs
  cases Token.extraWidth? symbol with
  | none => exact keeps_throw
  | some width =>
    refine keeps_get_bind fun s hs => ?_
    by_cases hprev : symbol = 16 ∧ s.lens = []
    · rw [if_pos hprev]
      exact hs
    · rw [if_neg hprev]
      exact keeps_bounded_readExtra symbol width s hs

end LengthReading

namespace Checked

variable {σ : Type}

/-- A symbol of the code-length alphabet and how many lengths it stands for. -/
structure Run where
  symbol : Nat
  count : Nat
  deriving DecidableEq, Repr

namespace Run

/-- The run of a token. -/
def ofToken (t : Token) : Run := ⟨t.symbol, t.count⟩

/-- The byte of the shortest run of a symbol. -/
def firstByte (symbol : Nat) : Nat :=
  if symbol = 16 then 16 else if symbol = 17 then 20 else 28

/-- The shortest run of a symbol. -/
def shortest (symbol : Nat) : Nat := if symbol = 18 then 11 else 3

/-- The run of a symbol that a byte from its first one on stands for. -/
def fromByte (symbol byte : Nat) : Option Run := do
  let extra ← sub byte (firstByte symbol)
  let count ← add 8 extra (shortest symbol)
  return ⟨symbol, count⟩

/-- The run that a byte of a puff buffer stands for. -/
def ofByte (byte : UInt8) : EStateM Error σ Run :=
  let n := byte.toNat
  if n < 16 then return ⟨n, 1⟩
  else if n < 20 then liftM (fromByte 16 n)
  else if n < 28 then liftM (fromByte 17 n)
  else if n < 156 then liftM (fromByte 18 n)
  else throw (.invalid (.invalidToken n))

/-- The run of a symbol with the given extra bits, of which only those in the mask count. -/
def fromExtra (symbol mask extra : Nat) : Option Run := do
  let count ← add 8 (shortest symbol) (extra % 2 ^ 8 &&& mask)
  return ⟨symbol, count⟩

/-- The run that a symbol and its extra bits stand for. -/
def ofSymbol (symbol extra : Nat) : EStateM Error σ Run :=
  if symbol < 16 then return ⟨symbol, 1⟩
  else match symbol with
    | 16 => liftM (fromExtra 16 0x03 extra)
    | 17 => liftM (fromExtra 17 0x07 extra)
    | 18 => liftM (fromExtra 18 0x7F extra)
    | _ => throw (.invalid (.invalidSymbol symbol))

/-- The byte of a run in a puff buffer. -/
def toByte (r : Run) : Option Nat :=
  if r.symbol < 16 then some r.symbol
  else do
    let sum ← add 8 (firstByte r.symbol) r.count
    sub sum (shortest r.symbol)

/-- The value of the extra bits. -/
def extra (r : Run) : Option Nat :=
  if r.symbol < 16 then some 0 else sub r.count (shortest r.symbol)

/-- The length that a run repeats after `lens`. -/
def value (r : Run) (lens : Lengths) : EStateM Error σ UInt8 :=
  if r.symbol < 16 then return UInt8.ofNat r.symbol
  else if r.symbol = 16 then
    match lens.getLast? with
    | some len => return len
    | none => throw (.invalid .repeatWithoutPrevious)
  else return 0

/-- Appends the lengths of a run. -/
def expand (r : Run) (lens : Lengths) : EStateM Error σ Lengths := do
  let value ← r.value lens
  let total ← add 64 lens.length r.count
  return lens ++ List.replicate (total - lens.length) value

theorem toByte_ofToken (t : Token) : (ofToken t).toByte = some t.toByte.toNat := by
  cases t with
  | length x => revert x; decide
  | repeatPrevious x => revert x; decide
  | repeatZero x => revert x; decide
  | repeatZeroLong x => revert x; decide

theorem extra_ofToken (t : Token) : (ofToken t).extra = some t.extra := by
  cases t with
  | length x => revert x; decide
  | repeatPrevious x => revert x; decide
  | repeatZero x => revert x; decide
  | repeatZeroLong x => revert x; decide

theorem ofByte_eq (byte : UInt8) (s : σ) :
    ofByte byte s = match Token.ofByte byte with
      | .ok t => .ok (ofToken t) s
      | .error e => .error e s := by
  have hbyte := byte.toNat_lt
  unfold ofByte Token.ofByte Token.ofByte?
  dsimp only
  by_cases h₁ : byte.toNat < 16
  · simp [h₁, ofToken, Token.symbol, Token.count, Nat.mod_eq_of_lt h₁]
  by_cases h₂ : byte.toNat < 20
  · have hmod : (byte.toNat - 16) % 4 = byte.toNat - 16 := by omega
    simp [h₁, h₂, fromByte, firstByte, shortest, sub_eq (Nat.le_of_not_lt h₁),
      add_eq (show byte.toNat - 16 + 3 < 2 ^ 8 by omega), ofToken, Token.symbol, Token.count, hmod,
      Nat.add_comm]
  by_cases h₃ : byte.toNat < 28
  · have hmod : (byte.toNat - 20) % 8 = byte.toNat - 20 := by omega
    simp [h₁, h₂, h₃, fromByte, firstByte, shortest, sub_eq (Nat.le_of_not_lt h₂),
      add_eq (show byte.toNat - 20 + 3 < 2 ^ 8 by omega), ofToken, Token.symbol, Token.count, hmod,
      Nat.add_comm]
  by_cases h₄ : byte.toNat < 156
  · have hmod : (byte.toNat - 28) % 128 = byte.toNat - 28 := by omega
    simp [h₁, h₂, h₃, h₄, fromByte, firstByte, shortest, sub_eq (Nat.le_of_not_lt h₃),
      add_eq (show byte.toNat - 28 + 11 < 2 ^ 8 by omega), ofToken, Token.symbol, Token.count, hmod,
      Nat.add_comm]
  · simp [h₁, h₂, h₃, h₄]

/-- A mask keeps the extra bits that a symbol has. -/
theorem fromExtra_eq (symbol width extra : Nat) (h : width ≤ 7) :
    fromExtra symbol (2 ^ width - 1) extra = some ⟨symbol, shortest symbol + extra % 2 ^ width⟩ := by
  have hmod : extra % 2 ^ 8 % 2 ^ width = extra % 2 ^ width :=
    Nat.mod_mod_of_dvd extra (Nat.pow_dvd_pow 2 (by omega))
  have hlt : extra % 2 ^ width < 2 ^ 7 :=
    Nat.lt_of_lt_of_le (Nat.mod_lt _ (Nat.two_pow_pos width)) (Nat.pow_le_pow_right (by decide) h)
  have hle : shortest symbol ≤ 11 := by
    unfold shortest
    split <;> decide
  rw [fromExtra, Nat.and_two_pow_sub_one_eq_mod, hmod, add_eq (by omega)]
  rfl

theorem ofSymbol_eq (symbol extra : Nat) (s : σ) :
    ofSymbol symbol extra s = match Token.ofSymbol symbol extra with
      | .ok t => .ok (ofToken t) s
      | .error e => .error e s := by
  unfold ofSymbol Token.ofSymbol Token.ofSymbol?
  by_cases h : symbol < 16
  · simp [h, ofToken, Token.symbol, Token.count, Nat.mod_eq_of_lt h]
  rw [if_neg h, if_neg h]
  by_cases h₁ : symbol = 16
  · subst h₁
    exact congrArg (fun o => (liftM o : EStateM Error σ Run) s) (fromExtra_eq 16 2 extra (by decide))
  by_cases h₂ : symbol = 17
  · subst h₂
    exact congrArg (fun o => (liftM o : EStateM Error σ Run) s) (fromExtra_eq 17 3 extra (by decide))
  by_cases h₃ : symbol = 18
  · subst h₃
    exact congrArg (fun o => (liftM o : EStateM Error σ Run) s) (fromExtra_eq 18 7 extra (by decide))
  · split <;> simp_all

/-- The lengths after a run, as long as their number fits a word. -/
theorem expand_eq (t : Token) {lens : Lengths} (h : lens.length + t.count < 2 ^ 64) (s : σ) :
    (ofToken t).expand lens s = match t.expand lens with
      | .ok lens' => .ok lens' s
      | .error e => .error e s := by
  have hvalue : (ofToken t).value lens s = match t.value? lens with
      | some v => .ok v s
      | none => .error (.invalid .repeatWithoutPrevious) s := by
    cases t with
    | length x => simp [value, ofToken, Token.symbol, Token.value?]
    | repeatPrevious x =>
      simp only [value, ofToken, Token.symbol, Token.value?]
      cases lens.getLast? <;> rfl
    | repeatZero x => rfl
    | repeatZeroLong x => rfl
  have hadd : add 64 lens.length (ofToken t).count = some (lens.length + t.count) := add_eq h
  unfold expand Token.expand
  rw [run_bind, hvalue]
  cases t.value? lens with
  | none => rfl
  | some v =>
    dsimp only
    rw [run_lift hadd, Nat.add_sub_cancel_left]
    rfl

end Run

/-! ## Reading -/

/-- Looks up the next symbol without consuming its code. -/
def nextSymbol (table : LookupTable) : EStateM Error LengthReading Nat := do
  LengthReading.onReader (ensure table.maxBits)
  let key ← LengthReading.onReader (peek table.maxBits)
  let found ← lookup table key
  match found with
  | some symbol => return symbol
  | none => throw (.invalid .unknownCode)

/-- Consumes the code of a symbol. -/
def dropCode (codeLens : Lengths) (symbol : Nat) : EStateM Error LengthReading Unit := do
  let len ← codeLens[symbol]?
  LengthReading.onReader (drop len.toNat)

/-- Reads what comes after the code of a symbol, writes the byte of the run and expands it. -/
def readExtra (symbol width : Nat) : EStateM Error LengthReading Run := do
  let extra ← LengthReading.onReader (take width)
  let run ← Run.ofSymbol symbol extra
  let byte ← run.toByte
  LengthReading.onSink (ByteSink.push (UInt8.ofNat byte))
  let lens ← run.expand (← get).lens
  modify fun s => { s with lens }
  return run

/-- Reads one run. -/
def readRun (table : LookupTable) (codeLens : Lengths) : EStateM Error LengthReading Run := do
  let symbol ← nextSymbol table
  if (← get).sink.room = 0 then throw .insufficientOutput
  dropCode codeLens symbol
  match Token.extraWidth? symbol with
  | none => throw (.invalid (.invalidSymbol symbol))
  | some width =>
    if symbol = 16 ∧ (← get).lens = [] then throw (.invalid .repeatWithoutPrevious)
    readExtra symbol width

/-- Reads runs as long as lengths are missing, and returns the index after their bytes. -/
def readTokens (table : LookupTable) (codeLens : Lengths) (index : Nat) :
    Nat → EStateM Error LengthReading Nat
  | 0 => return index
  | missing + 1 => do
    let run ← readRun table codeLens
    let index ← add 64 index 1
    readTokens table codeLens index (missing - (run.count - 1))
termination_by missing => missing
decreasing_by omega

section Reading

variable {table : LookupTable} {codeLens : Lengths} {s : LengthReading}

theorem nextSymbol_eq (ht : table.maxBits < 32) (hr : s.reader.Bounded) :
    nextSymbol table s = LengthReading.nextSymbol table s := by
  unfold nextSymbol LengthReading.nextSymbol
  rw [peek_eq]
  refine run_bind_congr (run_focus_congr (ensure_eq _ hr)) fun _ s₁ _ => ?_
  exact run_bind_same fun key s₂ _ => run_lift (lookup_eq ht key)

theorem dropCode_eq (symbol : Nat) :
    dropCode codeLens symbol = LengthReading.dropCode codeLens symbol := by
  unfold dropCode LengthReading.dropCode
  simp only [drop_eq]
  cases codeLens[symbol]? <;> rfl

theorem readExtra_eq (symbol width : Nat) (hr : s.reader.Bounded) (hlens : s.lens.length < 2 ^ 63) :
    readExtra symbol width s = (Run.ofToken <$> LengthReading.readExtra symbol width) s := by
  unfold readExtra LengthReading.readExtra
  rw [map_bind]
  refine run_bind_congr (run_focus_congr (take_eq width hr)) fun extra s₁ h₁ => ?_
  have hl₁ := keeps_ok (LengthReading.keeps_lens_onReader s.lens _) rfl h₁
  rw [run_bind, Run.ofSymbol_eq]
  cases Token.ofSymbol symbol extra with
  | error e => rfl
  | ok t =>
    dsimp only
    rw [run_lift (Run.toByte_ofToken t), UInt8.ofNat_toNat, map_bind, LengthReading.accept, bind_assoc]
    refine run_bind_same fun _ s₂ h₂ => ?_
    have hl₂ := keeps_ok (LengthReading.keeps_lens_onSink s.lens _) hl₁ h₂
    have hcount := t.count_le
    rw [run_bind_ok run_get, run_bind, Run.expand_eq t (by rw [hl₂]; omega), bind_assoc,
      run_bind_ok run_get]
    cases t.expand s₂.lens <;> rfl

theorem readRun_eq (ht : table.maxBits < 32) (hr : s.Bounded) (hlens : s.lens.length < 2 ^ 63) :
    readRun table codeLens s = (Run.ofToken <$> LengthReading.readToken table codeLens) s := by
  unfold readRun LengthReading.readToken
  rw [map_bind]
  refine run_bind_congr (nextSymbol_eq ht hr) fun symbol s₁ h₁ => ?_
  have hr₁ := keeps_ok LengthReading.keeps_bounded_nextSymbol hr h₁
  have hl₁ := keeps_ok (LengthReading.keeps_lens_nextSymbol s.lens) rfl h₁
  rw [map_bind, run_bind_ok run_get, run_bind_ok run_get]
  by_cases hroom : s₁.sink.room = 0
  · rw [if_pos hroom, if_pos hroom]
    rfl
  rw [if_neg hroom, if_neg hroom, dropCode_eq, map_bind]
  refine run_bind_same fun _ s₂ h₂ => ?_
  have hr₂ := keeps_ok (LengthReading.keeps_bounded_dropCode symbol) hr₁ h₂
  have hl₂ := keeps_ok (LengthReading.keeps_lens_dropCode s.lens symbol) hl₁ h₂
  cases Token.extraWidth? symbol with
  | none => rfl
  | some width =>
    dsimp only
    rw [map_bind, run_bind_ok run_get, run_bind_ok run_get]
    by_cases hprev : symbol = 16 ∧ s₂.lens = []
    · rw [if_pos hprev, if_pos hprev]
      rfl
    · rw [if_neg hprev, if_neg hprev]
      exact readExtra_eq symbol width hr₂ (hl₂ ▸ hlens)

/-- By induction on the missing lengths: each run takes at least one of them. -/
theorem readTokens_eq (ht : table.maxBits < 32) {index missing : Nat} (hr : s.Bounded)
    (hindex : index + missing < 2 ^ 64) (hlens : 0 < missing → s.lens.length + missing < 2 ^ 63) :
    readTokens table codeLens index missing s =
      ((index + ·) <$> LengthReading.readTokens table codeLens missing) s := by
  induction missing using Nat.strongRecOn generalizing index s with
  | ind missing ih =>
    cases missing with
    | zero =>
      rw [readTokens, LengthReading.readTokens]
      rfl
    | succ missing =>
      have hlens := hlens (Nat.succ_pos missing)
      rw [readTokens, LengthReading.readTokens, map_bind, run_bind, readRun_eq ht hr (by omega), run_map,
        run_bind]
      cases hrun : LengthReading.readToken table codeLens s with
      | error e s₁ => rfl
      | ok t s₁ =>
        have hpos := t.count_pos
        have hr₁ := keeps_ok LengthReading.keeps_bounded_readToken hr hrun
        have hl₁ := LengthReading.length_of_readToken hrun
        have hrest : missing - ((Run.ofToken t).count - 1) = missing + 1 - t.count := by
          simp only [Run.ofToken]
          omega
        dsimp only
        rw [run_lift (add_eq (by omega)), hrest,
          ih _ (by omega) hr₁ (by omega) (fun _ => by omega), run_map, map_bind, run_bind]
        cases LengthReading.readTokens table codeLens (missing + 1 - t.count) s₁ with
        | error e s₂ => rfl
        | ok more s₂ =>
          show EStateM.Result.ok _ _ = EStateM.Result.ok _ _
          rw [Nat.add_assoc, Nat.add_comm 1]

end Reading

/-! ## Writing -/

/-- Writes the run that a byte stands for. -/
def writeRun (table : CodeTable) (codeLens : Lengths) (byte : UInt8) :
    EStateM Error LengthWriting Run := do
  let run ← Run.ofByte byte
  let length ← codeLens[run.symbol]?
  match LengthWriting.codeOf? table run.symbol length.toNat with
  | none => throw (.invalid (.unusedSymbol run.symbol))
  | some code =>
    if run.symbol = 16 ∧ (← get).lens = [] then throw (.invalid .repeatWithoutPrevious)
    LengthWriting.onWriter (put length.toNat code)
    let width ← Token.extraWidth? run.symbol
    let extra ← run.extra
    LengthWriting.onWriter (put width extra)
    let lens ← run.expand (← get).lens
    modify fun s => { s with lens }
    return run

/-- Writes runs as long as lengths are missing, and returns the index after their bytes. -/
def writeTokens (table : CodeTable) (codeLens : Lengths) (index : Nat) :
    Nat → List UInt8 → EStateM Error LengthWriting Nat
  | 0, _ => return index
  | _ + 1, [] => throw .insufficientInput
  | missing + 1, byte :: rest => do
    let index ← add 64 index 1
    let run ← writeRun table codeLens byte
    writeTokens table codeLens index (missing - (run.count - 1)) rest

section Writing

variable {table : CodeTable} {codeLens : Lengths} {s : LengthWriting}

theorem writeRun_eq (byte : UInt8) (hw : s.writer.Spare 64) (hlens : s.lens.length < 2 ^ 63) :
    writeRun table codeLens byte s =
      (Run.ofToken <$> LengthWriting.writeToken table codeLens byte) s := by
  unfold writeRun LengthWriting.writeToken
  rw [run_bind, Run.ofByte_eq]
  cases Token.ofByte byte with
  | error e => rfl
  | ok t =>
    have hsymbol : (Run.ofToken t).symbol = t.symbol := rfl
    dsimp only
    rw [hsymbol]
    cases codeLens[t.symbol]? with
    | none => rfl
    | some length =>
      rw [run_lift rfl]
      dsimp only
      cases LengthWriting.codeOf? table t.symbol length.toNat with
      | none => rfl
      | some code =>
        dsimp only
        rw [map_bind, run_bind_ok run_get, run_bind_ok run_get]
        have hiff : (t.isRepeatPrevious = true ∧ s.lens = []) ↔ (t.symbol = 16 ∧ s.lens = []) :=
          and_congr_left' t.isRepeatPrevious_iff
        by_cases hprev : t.symbol = 16 ∧ s.lens = []
        · rw [if_pos hprev, if_pos (hiff.mpr hprev)]
          rfl
        rw [if_neg hprev, if_neg (mt hiff.mp hprev), map_bind]
        refine run_bind_congr (run_focus_congr (put_eq _ _ (hw.mono (by decide)))) fun _ s₁ h₁ => ?_
        have hl₁ := keeps_ok (LengthWriting.keeps_lens_onWriter s.lens _) rfl h₁
        have hw₁ : s₁.writer.Spare 32 := by
          obtain ⟨w, hput, rfl⟩ := ok_of_focus h₁
          exact BitWriter.Spare.put hw hput
        rw [run_lift t.extraWidth?_symbol, run_lift (Run.extra_ofToken t), map_bind]
        refine run_bind_congr (run_focus_congr (put_eq _ _ (hw₁.mono (by decide)))) fun _ s₂ h₂ => ?_
        have hl₂ := keeps_ok (LengthWriting.keeps_lens_onWriter s.lens _) hl₁ h₂
        have hcount := t.count_le
        rw [map_bind, run_bind_ok run_get, run_bind_ok run_get, run_bind,
          Run.expand_eq t (by rw [hl₂]; omega)]
        cases t.expand s₂.lens <;> rfl

/-- A token takes at most two fields. -/
theorem spare_of_writeToken {byte : UInt8} {t : Token} {n : Nat} {s' : LengthWriting}
    (hw : s.writer.Spare (n + 64))
    (h : LengthWriting.writeToken table codeLens byte s = .ok t s') : s'.writer.Spare n := by
  obtain ⟨_, _, w₁, w₂, lens, h₁, h₂, -, rfl⟩ := LengthWriting.ok_of_writeToken h
  have hw₁ : w₁.Spare (n + 32) := BitWriter.Spare.put hw h₁
  exact hw₁.put h₂

/-- By induction on the bytes: each run takes at least one of the missing lengths. -/
theorem writeTokens_eq {index missing : Nat} (bytes : List UInt8) (hw : s.writer.Spare (64 * missing))
    (hindex : index + missing < 2 ^ 64) (hlens : 0 < missing → s.lens.length + missing < 2 ^ 63) :
    writeTokens table codeLens index missing bytes s =
      ((index + ·) <$> LengthWriting.writeTokens table codeLens missing bytes) s := by
  induction bytes generalizing index missing s with
  | nil => cases missing <;> rfl
  | cons byte rest ih =>
    cases missing with
    | zero => rfl
    | succ missing =>
      have hlens := hlens (Nat.succ_pos missing)
      have hw : s.writer.Spare (64 * missing + 64) := hw
      rw [writeTokens, LengthWriting.writeTokens, map_bind, run_lift (add_eq (by omega)), run_bind,
        writeRun_eq byte (hw.mono (by omega)) (by omega), run_map, run_bind]
      cases hrun : LengthWriting.writeToken table codeLens byte s with
      | error e s₁ => rfl
      | ok t s₁ =>
        have hpos := t.count_pos
        have hw₁ := spare_of_writeToken hw hrun
        have hl₁ := LengthWriting.length_of_writeToken hrun
        have hrest : missing - ((Run.ofToken t).count - 1) = missing + 1 - t.count := by
          simp only [Run.ofToken]
          omega
        dsimp only
        rw [hrest, ih (hw₁.mono (by omega)) (by omega) (fun _ => by omega), run_map, map_bind, run_bind]
        cases LengthWriting.writeTokens table codeLens (missing + 1 - t.count) rest s₁ with
        | error e s₂ => rfl
        | ok more s₂ =>
          show EStateM.Result.ok _ _ = EStateM.Result.ok _ _
          rw [Nat.add_assoc, Nat.add_comm 1]

theorem spare_of_writeTokens {missing n m : Nat} {bytes : List UInt8} {s' : LengthWriting}
    (hw : s.writer.Spare (n + 64 * missing))
    (h : LengthWriting.writeTokens table codeLens missing bytes s = .ok m s') : s'.writer.Spare n := by
  replace h := LengthWriting.tokenRun_of_writeTokens h
  induction h with
  | done bytes s => exact hw
  | @token missing m byte rest t s s₁ s' hstep hrest ih =>
    have hpos := t.count_pos
    have hw₁ : s₁.writer.Spare (n + 64 * missing) := spare_of_writeToken hw hstep
    exact ih (hw₁.mono (by omega))

end Writing

end Checked
end DeflateHeader
