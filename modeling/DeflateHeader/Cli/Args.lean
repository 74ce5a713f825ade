import DeflateHeader.Container

/-!
# The command line

`parse` reads the words after the program's name. Words are read from left to right on two
levels: first switches up to the name of a command, then the command's own words. The switches
`-f`, `-q`, `-v` and `--json` are known on both levels.

Each level keeps its own account: a switch that is no counter may stand once on a level, and `-q`
not beside `-v`. Afterwards the two accounts are merged, where a count of the inner level replaces
that of the outer one. A request for help or for the version is answered as soon as it is read,
whatever follows it.
-/

namespace DeflateHeader.Cli

/-- How much is reported besides the result. -/
structure Reporting where
  quiet : Bool
  /-- 0, 1 or 2. -/
  verbosity : Nat
  json : Bool
  deriving DecidableEq, Repr

/-- What is to be done. -/
inductive Action
  | puff (container : Container) (input : String) (output : Option String)
  | huff (isFinal : Bool) (input : String) (output : Option String)
  | verify (container : Container) (input : String)
  | fixed
  deriving DecidableEq, Repr

/-- An accepted command line. -/
structure Options where
  action : Action
  force : Bool
  reporting : Reporting
  deriving DecidableEq, Repr

/-- A command line that names no action. -/
inductive Halt
  | usage
  | help
  | version
  deriving DecidableEq, Repr

/-- The switches of both levels. -/
inductive Switch
  | force
  | quiet
  | verbose
  | json
  deriving DecidableEq, Repr

namespace Switch

/-- The switch with a one-letter name. -/
def ofLetter? : Char → Option Switch
  | 'f' => some force
  | 'q' => some quiet
  | 'v' => some verbose
  | _ => none

/-- The switch with a long name. -/
def ofName? : String → Option Switch
  | "force" => some force
  | "quiet" => some quiet
  | "verbose" => some verbose
  | "json" => some json
  | _ => none

end Switch

/-- The switches of one level. -/
structure Switches where
  force : Bool := false
  quiet : Bool := false
  verbose : Nat := 0
  json : Bool := false
  deriving DecidableEq, Repr

namespace Switches

/-- Adds a switch; only `-v` may be repeated. -/
def add (s : Switches) : Switch → Except Halt Switches
  | .force => if s.force then .error .usage else .ok { s with force := true }
  | .quiet => if s.quiet then .error .usage else .ok { s with quiet := true }
  | .verbose => .ok { s with verbose := s.verbose + 1 }
  | .json => if s.json then .error .usage else .ok { s with json := true }

/-- Whether the switches may stand side by side. -/
def compatible (s : Switches) : Bool := !(s.quiet && 0 < s.verbose)

/-- The switches of an outer and an inner level together. -/
def merge (outer inner : Switches) : Switches where
  force := outer.force || inner.force
  quiet := outer.quiet || inner.quiet
  verbose := if inner.verbose = 0 then outer.verbose else inner.verbose
  json := outer.json || inner.json

/-- What the switches ask to be reported; verbosity ends at 2. -/
def reporting (s : Switches) : Reporting := ⟨s.quiet, min s.verbose 2, s.json⟩

end Switches

/-- A word of the command line by its form. -/
inductive Word
  /-- Two dashes: no options after this. -/
  | endOfOptions
  /-- Two dashes and a name, perhaps with a value after an equals sign. -/
  | long (name : String) (value : Option String)
  /-- One dash and letters. -/
  | short (letters : List Char)
  | plain
  deriving DecidableEq, Repr

namespace Word

/-- The form of a word. A single dash is a plain word. -/
def ofString (text : String) : Word :=
  match text.toList with
  | ['-', '-'] => endOfOptions
  | '-' :: '-' :: rest =>
    let name := String.ofList (rest.takeWhile (· != '='))
    match rest.dropWhile (· != '=') with
    | [] => long name none
    | _ :: value => long name (some (String.ofList value))
  | '-' :: letter :: letters => short (letter :: letters)
  | _ => plain

end Word

/-- The two levels of a command line. -/
inductive Level
  | outer
  | inner
  deriving DecidableEq, Repr

namespace Switches

/-- Takes a word with two dashes as a switch. -/
def addLong (level : Level) (s : Switches) (name : String) (value : Option String) :
    Except Halt Switches :=
  match value with
  | some _ => .error .usage
  | none =>
    if name = "help" then .error .help
    else if name = "version" ∧ level = .outer then .error .version
    else match Switch.ofName? name with
      | some switch => s.add switch
      | none => .error .usage

/-- Takes the letters after one dash as switches, one after the other. -/
def addLetters (level : Level) (s : Switches) : List Char → Except Halt Switches
  | [] => .ok s
  | letter :: letters =>
    if letter = 'h' then .error .help
    else if letter = 'V' ∧ level = .outer then .error .version
    else match Switch.ofLetter? letter with
      | some switch => do
        let s ← s.add switch
        s.addLetters level letters
      | none => .error .usage

end Switches

/-- The commands. -/
inductive Command
  | puff
  | huff
  | verify
  | fixed
  deriving DecidableEq, Repr

namespace Command

/-- The command with a name. -/
def ofName? : String → Option Command
  | "puff" => some puff
  | "huff" => some huff
  | "verify" => some verify
  | "fixed" => some fixed
  | _ => none

/-- Whether a command has the option `--format`. -/
def hasFormat : Command → Bool
  | puff | verify => true
  | _ => false

/-- Whether a command has the switch `--final`. -/
def hasFinal : Command → Bool
  | huff => true
  | _ => false

/-- How many operands a command has at most. -/
def maxOperands : Command → Nat
  | puff | huff => 2
  | verify => 1
  | fixed => 0

end Command

/-- The container that a value of `--format` names. -/
def containerOfName? : String → Option Container
  | "raw" => some .raw
  | "zlib" => some .zlib
  | "gzip" => some .gzip
  | _ => none

/-- What the words of a command have said so far. -/
structure CommandWords where
  switches : Switches := {}
  format : Option Container := none
  isFinal : Bool := false
  operands : List String := []
  deriving DecidableEq, Repr

namespace CommandWords

/-- Adds an operand, which must not be empty or one too many. -/
def addOperand (command : Command) (w : CommandWords) (text : String) :
    Except Halt CommandWords :=
  if text = "" ∨ command.maxOperands ≤ w.operands.length then .error .usage
  else .ok { w with operands := w.operands ++ [text] }

/-- Sets the container, once. -/
def setFormat (w : CommandWords) (value : String) : Except Halt CommandWords :=
  match w.format, containerOfName? value with
  | none, some container => .ok { w with format := some container }
  | _, _ => .error .usage

/-- Sets the final flag, once. -/
def setFinal (w : CommandWords) (value : Option String) : Except Halt CommandWords :=
  if w.isFinal ∨ value ≠ none then .error .usage else .ok { w with isFinal := true }

/-- Reads operands only. -/
def readOperands (command : Command) (w : CommandWords) : List String → Except Halt CommandWords
  | [] => .ok w
  | text :: rest => do
    let w ← w.addOperand command text
    w.readOperands command rest

/-- Reads the words after the name of a command. -/
def read (command : Command) (w : CommandWords) : List String → Except Halt CommandWords
  | [] => .ok w
  | text :: rest =>
    match Word.ofString text with
    | .endOfOptions => w.readOperands command rest
    | .plain => do
      let w ← w.addOperand command text
      w.read command rest
    | .short letters => do
      let switches ← w.switches.addLetters .inner letters
      read command { w with switches } rest
    | .long name value =>
      if name = "format" ∧ command.hasFormat then
        match value, rest with
        | some value, rest => do
          let w ← w.setFormat value
          w.read command rest
        | none, value :: rest => do
          let w ← w.setFormat value
          w.read command rest
        | none, [] => .error .usage
      else if name = "final" ∧ command.hasFinal then do
        let w ← w.setFinal value
        w.read command rest
      else do
        let switches ← w.switches.addLong .inner name value
        read command { w with switches } rest

/-- The action that the words of a command ask for. -/
def action (command : Command) (w : CommandWords) : Except Halt Action :=
  let container := w.format.getD .raw
  match command, w.operands with
  | .puff, input :: output => .ok (.puff container input output.head?)
  | .huff, input :: output => .ok (.huff w.isFinal input output.head?)
  | .verify, [input] => .ok (.verify container input)
  | .fixed, [] => .ok .fixed
  | _, _ => .error .usage

end CommandWords

/-- Reads the words after the name of a command, where `outer` are the switches before it. -/
def parseCommand (outer : Switches) (command : Command) (words : List String) :
    Except Halt Options := do
  let w ← CommandWords.read command {} words
  let action ← w.action command
  if w.switches.compatible && outer.compatible then
    let switches := outer.merge w.switches
    return ⟨action, switches.force, switches.reporting⟩
  else throw .usage

/-- Reads the words after `help`, each of which must name a command. -/
def parseHelp : List String → Halt
  | [] => .help
  | ["help"] => .help
  | [name] => if (Command.ofName? name).isSome then .help else .usage
  | _ => .usage

/-- Reads the words from the first one on, with the switches that were read. -/
def parseOuter (s : Switches) : List String → Except Halt Options
  | [] => .error .usage
  | text :: rest =>
    match Word.ofString text with
    | .endOfOptions => .error .usage
    | .short letters => do
      let s ← s.addLetters .outer letters
      parseOuter s rest
    | .long name value => do
      let s ← s.addLong .outer name value
      parseOuter s rest
    | .plain =>
      if text = "help" then .error (parseHelp rest)
      else match Command.ofName? text with
        | some command => parseCommand s command rest
        | none => .error .usage

/-- Reads the words after the program's name. -/
def parse (words : List String) : Except Halt Options := parseOuter {} words

end DeflateHeader.Cli
