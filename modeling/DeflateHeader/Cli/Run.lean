import DeflateHeader.Cli.Args
import DeflateHeader.Cli.Files
import DeflateHeader.Cli.FixedReport
import DeflateHeader.Cli.Stats

/-!
# Running a command

`run` does what a command line asks for. A command reads its input, works on it, writes its
output and reports, in this order, and stops at the first step that fails; nothing is written
before the work has succeeded. How much is reported decides about standard error alone.

Standard error has the codec's remarks first and then the command's own messages.
-/

namespace DeflateHeader.Cli

/-- How a run ends: exit code, standard output and the lines of standard error. -/
structure Outcome where
  code : Nat
  stdout : List UInt8 := []
  stderr : List String := []
  deriving DecidableEq, Repr

namespace Outcome

/-- The run has failed with these lines. -/
def failure (lines : List String) : Outcome := { code := 1, stderr := lines }

/-- Standard error as one text. -/
def errorText (o : Outcome) : String := String.join (o.stderr.map (· ++ "\n"))

end Outcome

/-- The name under which the program reports. -/
def programName : String := "oxipuff"

/-- The version of the program. -/
def version : String := "0.1.0"

/-- A message in the program's name. -/
def message (text : String) : String := programName ++ ": " ++ text

/-- Lines as bytes. -/
def textBytes (lines : List String) : List UInt8 :=
  (String.join (lines.map (· ++ "\n"))).toUTF8.toList

namespace Reporting

/-- Whether a remark is shown: warnings unless quiet, details from verbosity 2 on. -/
def shows (r : Reporting) (note : Note) : Bool :=
  !r.quiet && match note.severity with
    | .warning => true
    | .detail => decide (2 ≤ r.verbosity)

/-- The remarks that are shown, as lines. -/
def noteLines (r : Reporting) (notes : List Note) : List String :=
  (notes.filter r.shows).map fun note =>
    (match note.severity with
      | .warning => "[WARN ] "
      | .detail => "[DEBUG] ") ++ note.message

/-- Whether messages on success are shown from a verbosity on. -/
def tells (r : Reporting) (verbosity : Nat) : Bool := !r.quiet && decide (verbosity ≤ r.verbosity)

/-- Statistics, if they are asked for. -/
def statLines (r : Reporting) (stats : Stats) : List String := if r.json then [stats.render] else []

end Reporting

/-- The sizes at the start of a puff buffer. -/
def sizesOf? : List UInt8 → Option AlphabetSizes
  | hlit :: hdist :: hclen :: _ =>
    (AlphabetSizes.ofFields hlit.toNat hdist.toNat hclen.toNat).toOption
  | _ => none

/-- What is reported after `puff`. -/
def puffReport (r : Reporting) (inputSize : Nat) (header : Puffed) : List String :=
  let sizes := sizesOf? header.puff
  let bits := header.bits
  let puffSize := header.puff.length
  let isFinal := header.block.isFinal
  let summary :=
    if r.tells 1 then
      [message s!"puff: input size: {inputSize}, header bits: {bits}, puff size: {puffSize}"]
    else []
  let detail :=
    match sizes with
    | some ⟨litLen, distance, codes⟩ =>
      if r.tells 2 then
        [message (s!"puff: {litLen} lit/len, {distance} distance, {codes} code-length codes, "
          ++ s!"final: {isFinal}")]
      else []
    | none => []
  let size (f : AlphabetSizes → Nat) : StatValue :=
    match sizes with
    | some s => .number (f s)
    | none => .absent
  summary ++ detail ++ r.statLines
    [ ("command", .word "puff"),
      ("container_size", .number header.containerSize),
      ("header_bits", .number bits),
      ("input_size", .number inputSize),
      ("is_final", .flag isFinal),
      ("num_codes", size AlphabetSizes.codeLength),
      ("num_distance", size AlphabetSizes.distance),
      ("num_lit_len", size AlphabetSizes.litLen),
      ("puff_size", .number puffSize) ]

/-- What is reported after `huff`. -/
def huffReport (r : Reporting) (puffSize : Nat) (isFinal : Bool) (header : Huffed) : List String :=
  let bits := header.bits
  let size := header.bytes.length
  let summary :=
    if r.tells 1 then
      [message s!"huff: puff size: {puffSize}, header bits: {bits}, output size: {size}"]
    else []
  summary ++ r.statLines
    [ ("command", .word "huff"),
      ("header_bits", .number bits),
      ("is_final", .flag isFinal),
      ("output_size", .number size),
      ("puff_size", .number puffSize) ]

/-- The statistics of `verify`. -/
def verifyStats (r : Reporting) (inputSize : Nat) (v : Verified) : List String :=
  r.statLines
    [ ("command", .word "verify"),
      ("header_bits", .number v.header.bits),
      ("input_size", .number inputSize),
      ("matches", .flag v.isSame),
      ("puff_size", .number v.header.puff.length) ]

/-- The end of a verification. -/
def verifyOutcome (r : Reporting) (log : List String) (inputSize : Nat) (v : Verified) : Outcome :=
  let lines := log ++ verifyStats r inputSize v
  if v.isSame then
    let bits := v.header.bits
    let size := v.header.puff.length
    let told :=
      if r.tells 0 then
        [message s!"verify: {bits} header bits round-trip through {size} puff bytes"]
      else []
    { code := 0, stderr := lines ++ told }
  else .failure (lines ++ [message "verify: re-encoded header differs from input"])

/-- The end of `fixed`. -/
def fixedOutcome (r : Reporting) : Outcome :=
  match Codec.buildFixed Codec.new with
  | .error e codec =>
    .failure (r.noteLines codec.notes ++ [message ("fixed table error: " ++ e.message)])
  | .ok () codec =>
    let sizes := FixedSizes.ofCodec codec
    let table := if r.tells 1 then symbolLines codec else []
    let stats := r.statLines
      [ ("command", .word "fixed"),
        ("distance_max_bits", .number sizes.distanceBits),
        ("distance_symbols", .number sizes.distanceSymbols),
        ("lit_len_max_bits", .number sizes.litLenBits),
        ("lit_len_symbols", .number sizes.litLenSymbols) ]
    { code := 0
      stdout := textBytes ((if r.tells 0 then sizes.lines else []) ++ table)
      stderr := r.noteLines codec.notes ++ stats }

section Commands

variable {m : Type → Type} [Monad m] [FileAccess m]

/-- Reads an input file and goes on with its content. -/
def withInput (path : String) (next : List UInt8 → m Outcome) : m Outcome := do
  match ← FileAccess.readFile path with
  | .error e => return .failure [message ("input file: " ++ path ++ ": " ++ e.message)]
  | .ok data => next data

/-- Writes a result to a file, or to standard output if there is none. A file that is there is
overwritten only by force. -/
def deliver (force : Bool) (output : Option String) (bytes : List UInt8)
    (log report : List String) : m Outcome := do
  match output with
  | none => return { code := 0, stdout := bytes, stderr := log ++ report }
  | some path =>
    let present ← FileAccess.isPresent path
    if present && !force then
      return .failure
        (log ++ [message ("output file exists, use -f to overwrite: " ++ path)])
    else
      match ← FileAccess.writeFile path bytes with
      | .error (.opening e) =>
        return .failure (log ++ [message ("output file: " ++ path ++ ": " ++ e.message)])
      | .error (.storing e) => return .failure (log ++ [message ("write error: " ++ e.message)])
      | .ok () => return { code := 0, stderr := log ++ report }

/-- Turns the header of a stream into a puff buffer. -/
def runPuff (force : Bool) (r : Reporting) (container : Container) (input : String)
    (output : Option String) : m Outcome :=
  withInput input fun data =>
    match Codec.puff data container Codec.new with
    | .error e codec =>
      return .failure (r.noteLines codec.notes ++ [message ("puff error: " ++ e.message)])
    | .ok header codec =>
      deliver force output header.puff (r.noteLines codec.notes) (puffReport r data.length header)

/-- Turns a puff buffer into a header. A buffer that is too long for any header is refused. -/
def runHuff (force : Bool) (r : Reporting) (isFinal : Bool) (input : String)
    (output : Option String) : m Outcome :=
  withInput input fun puff =>
    let size := puff.length
    if maxPuffSize < size then
      return .failure [message s!"puff buffer of {size} bytes exceeds max {maxPuffSize}"]
    else
      match Codec.huff puff isFinal Codec.new with
      | .error e codec =>
        return .failure (r.noteLines codec.notes ++ [message ("huff error: " ++ e.message)])
      | .ok header codec =>
        deliver force output header.bytes (r.noteLines codec.notes)
          (huffReport r size isFinal header)

/-- Turns the header of a stream into a puff buffer and back, and compares. -/
def runVerify (r : Reporting) (container : Container) (input : String) : m Outcome :=
  withInput input fun data =>
    match Codec.verify data container Codec.new with
    | .error e codec =>
      return .failure (r.noteLines codec.notes ++ [message ("verify error: " ++ e.message)])
    | .ok verified codec =>
      return verifyOutcome r (r.noteLines codec.notes) data.length verified

/-- Does what an accepted command line asks for. -/
def runOptions (o : Options) : m Outcome :=
  match o.action with
  | .puff container input output => runPuff o.force o.reporting container input output
  | .huff isFinal input output => runHuff o.force o.reporting isFinal input output
  | .verify container input => runVerify o.reporting container input
  | .fixed => return fixedOutcome o.reporting

end Commands

/-- How the program is called. -/
def usage : List String :=
  [ "Usage: " ++ programName ++ " [-f] [-q | -v...] [--json] <COMMAND>",
    "",
    "Commands:",
    "  puff [--format raw|zlib|gzip] <INPUT> [OUTPUT]    dynamic header to puff buffer",
    "  huff [--final] <INPUT> [OUTPUT]                   puff buffer to dynamic header",
    "  verify [--format raw|zlib|gzip] <INPUT>           there and back again, compared",
    "  fixed                                             the fixed tables" ]

/-- The end of a run without an action. -/
def haltOutcome : Halt → Outcome
  | .usage => { code := 2, stderr := usage }
  | .help => { code := 0, stdout := textBytes usage }
  | .version => { code := 0, stdout := textBytes [programName ++ " " ++ version] }

/-- Runs the program on the words after its name. -/
def run {m : Type → Type} [Monad m] [FileAccess m] (words : List String) : m Outcome :=
  match parse words with
  | .error halt => return haltOutcome halt
  | .ok options => runOptions options

end DeflateHeader.Cli
