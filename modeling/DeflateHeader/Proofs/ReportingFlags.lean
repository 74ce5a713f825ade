import DeflateHeader.Proofs.CommandRuns

/-!
# Reporting does not change the work

`unreported` takes the flags for reporting out of a command line, wherever they stand before `--`: words
of their own, and letters beside others. The rest of an accepted command line is accepted and asks for
the same action (`parse_unreported`), so two accepted command lines with the same rest differ in no more
than their flags.

What an action does apart from standard error is `Outcome.work` and what becomes of the files. It is the
same whatever is to be reported (`sameWork_runOptions`). This is shown for runs on files of any kind, as
equality of actions: neither run asks for a file that the other one does not ask for.
-/

namespace DeflateHeader.Cli

/-! ## Command lines without reporting -/

/-- The long names of the flags for reporting. -/
def reportingNames : List String := ["quiet", "verbose", "json"]

/-- The letters for reporting. -/
def reportingLetters : List Char := ['q', 'v']

/-- What is left of a word without flags for reporting, if anything. -/
def bare (text : String) : Option String :=
  match Word.ofString text with
  | .long name none => if name ∈ reportingNames then none else some text
  | .short letters =>
    match letters.filter fun letter => letter ∉ reportingLetters with
    | [] => none
    | kept => some (String.ofList ('-' :: kept))
  | _ => some text

/-- A command line without flags for reporting. After `--` there are no flags. -/
def unreported : List String → List String
  | [] => []
  | text :: rest =>
    if text = "--" then text :: rest
    else (bare text).toList ++ unreported rest

/-- A flag for reporting may be added anywhere before `--`, and as often as one likes. -/
theorem unreported_insert {flag : String} (hflag : bare flag = none) {before : List String}
    (h : "--" ∉ before) (after : List String) :
    unreported (before ++ flag :: after) = unreported (before ++ after) := by
  induction before with
  | nil =>
    have hne : flag ≠ "--" := by
      rintro rfl
      exact absurd hflag (by decide)
    rw [List.nil_append, unreported, if_neg hne, hflag]
    rfl
  | cons text before ih =>
    rw [List.mem_cons, not_or] at h
    rw [List.cons_append, List.cons_append, unreported, unreported, if_neg (Ne.symm h.1),
      if_neg (Ne.symm h.1), ih h.2]

/-! ## Words -/

theorem Word.eq_of_endOfOptions {text : String} (h : Word.ofString text = .endOfOptions) :
    text = "--" := by
  unfold Word.ofString at h
  split at h
  · next htext => exact String.toList_inj.mp htext
  · split at h <;> cases h
  · cases h
  · cases h

theorem Word.ofString_short {letter : Char} (h : letter ≠ '-') (letters : List Char) :
    Word.ofString (String.ofList ('-' :: letter :: letters)) = .short (letter :: letters) := by
  unfold Word.ofString
  rw [String.toList_ofList]
  split <;> simp_all

section Words

variable {text word name : String} {rest : List String}

theorem unreported_of_some (h : Word.ofString text ≠ .endOfOptions) (hbare : bare text = some word) :
    unreported (text :: rest) = word :: unreported rest := by
  rw [unreported, if_neg, hbare]
  · rfl
  · rintro rfl
    exact h rfl

theorem unreported_of_none (h : Word.ofString text ≠ .endOfOptions) (hbare : bare text = none) :
    unreported (text :: rest) = unreported rest := by
  rw [unreported, if_neg, hbare]
  · rfl
  · rintro rfl
    exact h rfl

theorem bare_of_long_ne {value : Option String} (hform : Word.ofString text = .long name value)
    (hname : name ∉ reportingNames) : bare text = some text := by
  rw [bare, hform]
  cases value with
  | none => exact if_neg hname
  | some value => rfl

end Words

namespace Switches

variable {level : Level} {s s' : Switches}

/-- The switches without those for reporting. -/
def unreported (s : Switches) : Switches := { force := s.force }

/-- A switch for reporting changes nothing else, and another switch does not look at reporting. -/
theorem add_unreported {switch : Switch} (h : s.add switch = .ok s') :
    if switch = .force then s.unreported.add switch = .ok s'.unreported
    else s'.unreported = s.unreported := by
  cases switch with
  | force =>
    rw [add] at h
    split_ifs at h with hforce
    cases h
    exact if_neg hforce
  | quiet =>
    rw [add] at h
    split_ifs at h
    cases h
    rfl
  | verbose =>
    cases h
    rfl
  | json =>
    rw [add] at h
    split_ifs at h
    cases h
    rfl

/-- Letters that are accepted are so without those for reporting. -/
theorem addLetters_unreported {letters : List Char} (h : s.addLetters level letters = .ok s') :
    s.unreported.addLetters level (letters.filter fun letter => letter ∉ reportingLetters) =
      .ok s'.unreported := by
  induction letters generalizing s with
  | nil =>
    cases h
    rfl
  | cons letter letters ih =>
    rw [addLetters] at h
    split_ifs at h with hhelp hversion
    split at h
    · next switch hletter =>
      obtain ⟨s₁, hadd, hrest⟩ := ok_of_bind_except h
      have hadd' := add_unreported hadd
      unfold Switch.ofLetter? at hletter
      split at hletter <;> cases hletter
      · show (s.unreported.add .force >>= fun s => s.addLetters level _) = _
        rw [show s.unreported.add .force = _ from hadd']
        exact ih hrest
      · exact hadd' ▸ ih hrest
      · exact hadd' ▸ ih hrest
    · cases h

variable {text : String}

/-- What is left of a word of letters does what the word does apart from reporting. -/
theorem bare_of_short {letters : List Char} (hform : Word.ofString text = .short letters)
    (h : s.addLetters level letters = .ok s') :
    (bare text = none ∧ s'.unreported = s.unreported) ∨
    ∃ rest kept, bare text = some rest ∧ Word.ofString rest = .short kept ∧
      s.unreported.addLetters level kept = .ok s'.unreported := by
  have hkept := addLetters_unreported h
  rw [bare, hform]
  dsimp only
  generalize letters.filter _ = kept at hkept
  cases kept with
  | nil => exact .inl ⟨rfl, (Except.ok.inj hkept).symm⟩
  | cons letter kept =>
    have hne : letter ≠ '-' := by
      rintro rfl
      cases hkept
    exact .inr ⟨_, _, rfl, Word.ofString_short hne kept, hkept⟩

/-- A long name is left as it is or not at all. -/
theorem bare_of_long {name : String} {value : Option String}
    (hform : Word.ofString text = .long name value) (h : s.addLong level name value = .ok s') :
    (bare text = none ∧ s'.unreported = s.unreported) ∨
    (bare text = some text ∧ s.unreported.addLong level name value = .ok s'.unreported) := by
  rw [bare, hform]
  cases value with
  | some value => cases h
  | none =>
    rw [addLong] at h
    split_ifs at h with hhelp hversion
    split at h
    · next switch hname =>
      have hadd := add_unreported h
      unfold Switch.ofName? at hname
      split at hname <;> cases hname
      · exact .inr ⟨rfl, hadd⟩
      · exact .inl ⟨rfl, hadd⟩
      · exact .inl ⟨rfl, hadd⟩
      · exact .inl ⟨rfl, hadd⟩
    · cases h

end Switches

/-! ## Command lines -/

namespace CommandWords

variable {command : Command} {w w' : CommandWords} {words : List String}

/-- What the words of a command have said apart from reporting. -/
def unreported (w : CommandWords) : CommandWords := { w with switches := w.switches.unreported }

@[simp] theorem switches_unreported (w : CommandWords) :
    w.unreported.switches = w.switches.unreported := rfl

theorem addOperand_unreported {text : String} (h : w.addOperand command text = .ok w') :
    w.unreported.addOperand command text = .ok w'.unreported := by
  rw [addOperand] at h
  split_ifs at h with hbad
  cases h
  exact if_neg hbad

theorem setFormat_unreported {value : String} (h : w.setFormat value = .ok w') :
    w.unreported.setFormat value = .ok w'.unreported := by
  unfold setFormat at h
  split at h
  · next container hformat hname =>
    cases h
    unfold setFormat
    rw [hname, show w.unreported.format = none from hformat]
    rfl
  · cases h

theorem setFinal_unreported {value : Option String} (h : w.setFinal value = .ok w') :
    w.unreported.setFinal value = .ok w'.unreported := by
  rw [setFinal] at h
  split_ifs at h with hbad
  cases h
  exact if_neg hbad

theorem readOperands_unreported (h : w.readOperands command words = .ok w') :
    w.unreported.readOperands command words = .ok w'.unreported := by
  induction words generalizing w with
  | nil =>
    cases h
    rfl
  | cons text rest ih =>
    obtain ⟨w₁, hadd, hrest⟩ := ok_of_bind_except h
    rw [readOperands, addOperand_unreported hadd]
    exact ih hrest

/-- The word after `--format` is the name of a container, and so no flag. -/
theorem unreported_of_setFormat {value : String} (h : w.setFormat value = .ok w')
    (rest : List String) : Cli.unreported (value :: rest) = value :: Cli.unreported rest := by
  unfold setFormat at h
  split at h
  · next container hformat hname =>
    unfold containerOfName? at hname
    split at hname
    · exact unreported_of_some (by decide) (by decide)
    · exact unreported_of_some (by decide) (by decide)
    · exact unreported_of_some (by decide) (by decide)
    · cases hname
  · cases h

/-! What a word of each form says. -/

section Forms

variable {text name : String} {rest : List String}

theorem read_plain (hform : Word.ofString text = .plain) :
    w.read command (text :: rest) = (w.addOperand command text >>= fun w => w.read command rest) := by
  rw [read, hform]

theorem read_short {letters : List Char} (hform : Word.ofString text = .short letters) :
    w.read command (text :: rest) =
      (w.switches.addLetters .inner letters >>= fun switches =>
        read command { w with switches } rest) := by
  rw [read, hform]

theorem read_formatValue {value : String} (hform : Word.ofString text = .long name (some value))
    (hname : name = "format" ∧ command.hasFormat) :
    w.read command (text :: rest) = (w.setFormat value >>= fun w => w.read command rest) := by
  rw [read, hform]
  exact if_pos hname

theorem read_format {value : String} (hform : Word.ofString text = .long name none)
    (hname : name = "format" ∧ command.hasFormat) :
    w.read command (text :: value :: rest) =
      (w.setFormat value >>= fun w => w.read command rest) := by
  rw [read, hform]
  exact if_pos hname

theorem read_final {value : Option String} (hform : Word.ofString text = .long name value)
    (hformat : ¬ (name = "format" ∧ command.hasFormat)) (hname : name = "final" ∧ command.hasFinal) :
    w.read command (text :: rest) = (w.setFinal value >>= fun w => w.read command rest) := by
  rw [read, hform]
  exact (if_neg hformat).trans (if_pos hname)

theorem read_switch {value : Option String} (hform : Word.ofString text = .long name value)
    (hformat : ¬ (name = "format" ∧ command.hasFormat))
    (hfinal : ¬ (name = "final" ∧ command.hasFinal)) :
    w.read command (text :: rest) =
      (w.switches.addLong .inner name value >>= fun switches =>
        read command { w with switches } rest) := by
  rw [read, hform]
  exact (if_neg hformat).trans (if_neg hfinal)

end Forms

/-- The words of a command are read alike without those for reporting, one after the other. -/
theorem read_unreported (h : w.read command words = .ok w') :
    w.unreported.read command (Cli.unreported words) = .ok w'.unreported := by
  induction w, words using CommandWords.read.induct command generalizing w' with
  | case1 w =>
    cases h
    rfl
  | case2 w text rest hform =>
    rw [read, hform] at h
    obtain rfl := Word.eq_of_endOfOptions hform
    exact readOperands_unreported h
  | case3 w text rest hform ih =>
    rw [read_plain hform] at h
    obtain ⟨w₁, hadd, hrest⟩ := ok_of_bind_except h
    have hbare : bare text = some text := by rw [bare, hform]
    rw [unreported_of_some (by simp [hform]) hbare, read_plain hform, addOperand_unreported hadd]
    exact ih _ hrest
  | case4 w text rest letters hform ih =>
    rw [read_short hform] at h
    obtain ⟨s, hadd, hrest⟩ := ok_of_bind_except h
    have ih := ih s hrest
    rcases Switches.bare_of_short hform hadd with ⟨hbare, hs⟩ | ⟨word, kept, hbare, hform', hadd'⟩
    · rw [unreported_of_none (by simp [hform]) hbare]
      rw [unreported, hs] at ih
      exact ih
    · rw [unreported_of_some (by simp [hform]) hbare, read_short hform', switches_unreported, hadd']
      exact ih
  | case5 w text name hname value rest hform ih =>
    rw [read_formatValue hform hname] at h
    obtain ⟨w₁, hset, hrest⟩ := ok_of_bind_except h
    have hbare : bare text = some text := by rw [bare, hform]
    rw [unreported_of_some (by simp [hform]) hbare, read_formatValue hform hname,
      setFormat_unreported hset]
    exact ih _ hrest
  | case6 w text name hname value rest hform ih =>
    rw [read_format hform hname] at h
    obtain ⟨w₁, hset, hrest⟩ := ok_of_bind_except h
    have hbare : bare text = some text := bare_of_long_ne hform (by simp [hname.1, reportingNames])
    rw [unreported_of_some (by simp [hform]) hbare, unreported_of_setFormat hset,
      read_format hform hname, setFormat_unreported hset]
    exact ih _ hrest
  | case7 w text name hname hform =>
    rw [read, hform] at h
    dsimp only at h
    rw [if_pos hname] at h
    cases h
  | case8 w text rest name value hform hformat hname ih =>
    rw [read_final hform hformat hname] at h
    obtain ⟨w₁, hset, hrest⟩ := ok_of_bind_except h
    have hbare : bare text = some text := bare_of_long_ne hform (by simp [hname.1, reportingNames])
    rw [unreported_of_some (by simp [hform]) hbare, read_final hform hformat hname,
      setFinal_unreported hset]
    exact ih _ hrest
  | case9 w text rest name value hform hformat hfinal ih =>
    rw [read_switch hform hformat hfinal] at h
    obtain ⟨s, hadd, hrest⟩ := ok_of_bind_except h
    have ih := ih s hrest
    rcases Switches.bare_of_long hform hadd with ⟨hbare, hs⟩ | ⟨hbare, hadd'⟩
    · rw [unreported_of_none (by simp [hform]) hbare]
      rw [unreported, hs] at ih
      exact ih
    · rw [unreported_of_some (by simp [hform]) hbare, read_switch hform hformat hfinal,
        switches_unreported, hadd']
      exact ih

end CommandWords

section Lines

variable {s : Switches} {command : Command} {words : List String} {o : Options}

/-- What is to be done, and no report on it. -/
def Options.unreported (o : Options) : Options := { o with reporting := ⟨false, 0, false⟩ }

theorem parseCommand_unreported (h : parseCommand s command words = .ok o) :
    parseCommand s.unreported command (unreported words) = .ok o.unreported := by
  obtain ⟨w, hread, h⟩ := ok_of_bind_except h
  obtain ⟨action, haction, h⟩ := ok_of_bind_except h
  split at h
  · cases h
    have hread' : CommandWords.read command {} (unreported words) = .ok w.unreported :=
      CommandWords.read_unreported hread
    have haction' : w.unreported.action command = .ok action := haction
    rw [parseCommand, hread']
    show w.unreported.action command >>= _ = _
    rw [haction']
    rfl
  · cases h

/-- By the words before the name of a command, which are switches. -/
theorem parseOuter_unreported (h : parseOuter s words = .ok o) :
    parseOuter s.unreported (unreported words) = .ok o.unreported := by
  induction words generalizing s with
  | nil => cases h
  | cons text rest ih =>
    rw [parseOuter] at h
    cases hform : Word.ofString text with
    | endOfOptions =>
      rw [hform] at h
      cases h
    | short letters =>
      rw [hform] at h
      obtain ⟨s₁, hadd, hrest⟩ := ok_of_bind_except h
      have ih := ih hrest
      rcases Switches.bare_of_short hform hadd with ⟨hbare, hs⟩ | ⟨word, kept, hbare, hform', hadd'⟩
      · rw [unreported_of_none (by simp [hform]) hbare, ← hs]
        exact ih
      · rw [unreported_of_some (by simp [hform]) hbare, parseOuter, hform']
        dsimp only
        rw [hadd']
        exact ih
    | long name value =>
      rw [hform] at h
      obtain ⟨s₁, hadd, hrest⟩ := ok_of_bind_except h
      have ih := ih hrest
      rcases Switches.bare_of_long hform hadd with ⟨hbare, hs⟩ | ⟨hbare, hadd'⟩
      · rw [unreported_of_none (by simp [hform]) hbare, ← hs]
        exact ih
      · rw [unreported_of_some (by simp [hform]) hbare, parseOuter, hform]
        dsimp only
        rw [hadd']
        exact ih
    | plain =>
      rw [hform] at h
      dsimp only at h
      have hbare : bare text = some text := by rw [bare, hform]
      rw [unreported_of_some (by simp [hform]) hbare, parseOuter, hform]
      dsimp only
      split_ifs at h ⊢ with hhelp
      split at h
      · next command hcommand => exact parseCommand_unreported h
      · cases h

/-- Without its flags for reporting, an accepted command line is accepted, and what it asks for is the
same. -/
theorem parse_unreported (h : parse words = .ok o) : parse (unreported words) = .ok o.unreported :=
  parseOuter_unreported h

end Lines

/-! ## Runs -/

/-- How a run ends, apart from what it reports. -/
def Outcome.work (outcome : Outcome) : Nat × List UInt8 := (outcome.code, outcome.stdout)

section Runs

variable {m : Type → Type} [Monad m] {α : Type}

/-- The runs do the same with files and end alike; what they report may differ. -/
def SameWork (x y : m Outcome) : Prop := Outcome.work <$> x = Outcome.work <$> y

theorem sameWork_ite {c : Prop} [Decidable c] {x y x' y' : m Outcome} (hx : SameWork x x')
    (hy : SameWork y y') : SameWork (if c then x else y) (if c then x' else y') := by
  split
  · exact hx
  · exact hy

variable [LawfulMonad m]

theorem sameWork_pure {a b : Outcome} (h : a.work = b.work) : SameWork (pure a : m Outcome) (pure b) := by
  rw [SameWork, map_pure, map_pure, h]

theorem sameWork_bind {first : m α} {f g : α → m Outcome} (h : ∀ a, SameWork (f a) (g a)) :
    SameWork (first >>= f) (first >>= g) := by
  rw [SameWork, map_bind, map_bind]
  exact bind_congr h

variable [FileAccess m]

theorem sameWork_withInput {path : String} {next next' : List UInt8 → m Outcome}
    (h : ∀ data, SameWork (next data) (next' data)) :
    SameWork (withInput path next) (withInput path next') := by
  refine sameWork_bind fun result => ?_
  cases result with
  | error e => exact sameWork_pure rfl
  | ok data => exact h data

/-- The lines that are given to a delivery do not reach the files. -/
theorem sameWork_deliver (force : Bool) (output : Option String) (bytes : List UInt8)
    (log log' report report' : List String) :
    SameWork (deliver force output bytes log report : m Outcome)
      (deliver force output bytes log' report') := by
  unfold deliver
  cases output with
  | none => exact sameWork_pure rfl
  | some path =>
    refine sameWork_bind fun present => sameWork_ite (sameWork_pure rfl) ?_
    refine sameWork_bind fun result => ?_
    match result with
    | .error (.opening e) => exact sameWork_pure rfl
    | .error (.storing e) => exact sameWork_pure rfl
    | .ok () => exact sameWork_pure rfl

theorem sameWork_runPuff (force : Bool) (r r' : Reporting) (container : Container) (input : String)
    (output : Option String) :
    SameWork (runPuff force r container input output : m Outcome)
      (runPuff force r' container input output) := by
  refine sameWork_withInput fun data => ?_
  cases Codec.puff data container Codec.new with
  | error e codec => exact sameWork_pure rfl
  | ok header codec => exact sameWork_deliver ..

theorem sameWork_runHuff (force : Bool) (r r' : Reporting) (isFinal : Bool) (input : String)
    (output : Option String) :
    SameWork (runHuff force r isFinal input output : m Outcome)
      (runHuff force r' isFinal input output) := by
  refine sameWork_withInput fun puff => sameWork_ite (sameWork_pure rfl) ?_
  cases Codec.huff puff isFinal Codec.new with
  | error e codec => exact sameWork_pure rfl
  | ok header codec => exact sameWork_deliver ..

theorem sameWork_runVerify (r r' : Reporting) (container : Container) (input : String) :
    SameWork (runVerify r container input : m Outcome) (runVerify r' container input) := by
  refine sameWork_withInput fun data => ?_
  cases Codec.verify data container Codec.new with
  | error e codec => exact sameWork_pure rfl
  | ok verified codec =>
    refine sameWork_pure ?_
    unfold verifyOutcome
    cases verified.isSame <;> rfl

/-- A command that has an input file does the same work whatever it is to report. -/
theorem sameWork_runOptions {o : Options} (h : o.action ≠ .fixed) :
    SameWork (runOptions o : m Outcome) (runOptions o.unreported) := by
  obtain ⟨action, force, reporting⟩ := o
  unfold runOptions Options.unreported
  cases action with
  | puff container input output => exact sameWork_runPuff force reporting _ container input output
  | huff isFinal input output => exact sameWork_runHuff force reporting _ isFinal input output
  | verify container input => exact sameWork_runVerify reporting _ container input
  | fixed => exact absurd rfl h

end Runs

/-- Two accepted command lines that are the same without flags for reporting, of which `fixed` is not the
command, end with the same exit code and the same standard output on any files, and leave the same
files behind. -/
theorem same_work {words words' : List String} {o o' : Options} (h : parse words = .ok o)
    (h' : parse words' = .ok o') (hsame : unreported words = unreported words')
    (haction : o.action ≠ .fixed) :
    (∀ (m : Type → Type) [Monad m] [LawfulMonad m] [FileAccess m],
      Outcome.work <$> (run words : m Outcome) = Outcome.work <$> run words') ∧
    ∀ t : FileTree,
      (t.run words).1.code = (t.run words').1.code ∧
      (t.run words).1.stdout = (t.run words').1.stdout ∧
      (t.run words).2 = (t.run words').2 := by
  have ho : o.unreported = o'.unreported := by
    have hparse := parse_unreported h
    rw [hsame, parse_unreported h'] at hparse
    exact (Except.ok.inj hparse).symm
  have haction' : o'.action ≠ .fixed := by
    have heq : o.unreported.action = o'.unreported.action := congrArg Options.action ho
    exact fun hfixed => haction (heq.trans hfixed)
  have hwork : ∀ (m : Type → Type) [Monad m] [LawfulMonad m] [FileAccess m],
      Outcome.work <$> (run words : m Outcome) = Outcome.work <$> run words' := by
    intro m _ _ _
    unfold run
    rw [h, h']
    calc Outcome.work <$> (runOptions o : m Outcome)
        = Outcome.work <$> runOptions o.unreported := sameWork_runOptions haction
      _ = Outcome.work <$> runOptions o'.unreported := by rw [ho]
      _ = Outcome.work <$> runOptions o' := (sameWork_runOptions haction').symm
  refine ⟨hwork, fun t => ?_⟩
  have htree : (Outcome.work (t.run words).1, (t.run words).2) =
      (Outcome.work (t.run words').1, (t.run words').2) := congrFun (hwork (StateM FileTree)) t
  obtain ⟨hends, hfiles⟩ := Prod.mk.inj htree
  obtain ⟨hcode, hstdout⟩ := Prod.mk.inj hends
  exact ⟨hcode, hstdout, hfiles⟩

/-- Flags before and after the name of the command, one of them in a word with another letter. -/
theorem same_work_puff :
    parse ["-f", "puff", "a", "b"] = .ok ⟨.puff .raw "a" (some "b"), true, ⟨false, 0, false⟩⟩ ∧
    parse ["-fv", "puff", "--json", "a", "b", "-v"] =
      .ok ⟨.puff .raw "a" (some "b"), true, ⟨false, 1, true⟩⟩ ∧
    ∀ t : FileTree, (t.run ["-f", "puff", "a", "b"]).2 =
      (t.run ["-fv", "puff", "--json", "a", "b", "-v"]).2 := by
  have hparse : parse ["-f", "puff", "a", "b"] =
    .ok ⟨.puff .raw "a" (some "b"), true, ⟨false, 0, false⟩⟩ := by cbv
  have hparse' : parse ["-fv", "puff", "--json", "a", "b", "-v"] =
    .ok ⟨.puff .raw "a" (some "b"), true, ⟨false, 1, true⟩⟩ := by cbv
  have hv : bare "-v" = none := by cbv
  have hjson : bare "--json" = none := by cbv
  have hsame : unreported ["-f", "puff", "a", "b"] =
      unreported ["-fv", "puff", "--json", "a", "b", "-v"] :=
    calc unreported ["-f", "puff", "a", "b"]
        = unreported (["-fv", "puff", "a", "b"] ++ []) := by cbv
      _ = unreported (["-fv", "puff", "a", "b"] ++ "-v" :: []) :=
          Eq.symm (unreported_insert hv (by decide) [])
      _ = unreported (["-fv", "puff"] ++ "--json" :: ["a", "b", "-v"]) :=
          Eq.symm (unreported_insert hjson (by decide) ["a", "b", "-v"])
  exact ⟨hparse, hparse', fun t => ((same_work hparse hparse' hsame (by simp)).2 t).2.2⟩

end DeflateHeader.Cli
