import DeflateHeader.Cli.Run
import DeflateHeader.Proofs.FileTrees
import DeflateHeader.Proofs.RoundTrip
import DeflateHeader.Proofs.SizeLimits

/-!
# Runs of the command line

What a run does to the files it runs on. There are four ways for a run to end (`Ends`): it fails,
it only reports, it prints what it made of its input, or it stores it. A file is written by the last
step of a run that has succeeded up to there, so a run that fails has changed nothing
(`fileEffect_run`). A run whose input is accepted succeeds if its result can be delivered
(`delivered_puff`, `delivered_huff`).

The size limits are those of the longest header, so no run fails for lack of room, and the command
`huff` refuses no buffer for its length that is a header (`sizeLimits_suffice`).

The commands work with a new codec each, and their results fit together: `verify` succeeds where
`puff` does, and `huff` restores from the output of `puff` the bits that `puff` has read
(`restores_run`).
-/

namespace DeflateHeader.Cli

/-- Runs the program on a tree. -/
def FileTree.run (t : FileTree) (words : List String) : Outcome × FileTree :=
  (Cli.run words : StateM FileTree Outcome) t

namespace Action

/-- Whether an action makes something of its input file that is to be delivered. -/
def isTranscoding : Action → Bool
  | puff .. | huff .. => true
  | verify .. | fixed => false

/-- The path under which an action is to store its result. -/
def output? : Action → Option String
  | puff _ _ output | huff _ _ output => output
  | verify .. | fixed => none

theorem isTranscoding_of_output? {a : Action} {path : String} (h : a.output? = some path) :
    a.isTranscoding = true := by
  cases a <;> first | rfl | cases h

/-- The bytes that an action makes of its input file in a tree. -/
inductive Produces (t : FileTree) : Action → List UInt8 → Prop
  | puff {container : Container} {input : String} {output : Option String} {data : List UInt8}
      {header : Puffed} {codec : Codec} (read : t.read input = .ok data)
      (run : Codec.puff data container Codec.new = .ok header codec) :
      Produces t (.puff container input output) header.puff
  | huff {isFinal : Bool} {input : String} {output : Option String} {data : List UInt8}
      {header : Huffed} {codec : Codec} (read : t.read input = .ok data)
      (run : Codec.huff data isFinal Codec.new = .ok header codec) :
      Produces t (.huff isFinal input output) header.bytes

/-- The files of a tree determine what an action makes of its input. -/
theorem Produces.unique {t : FileTree} {a : Action} {bytes bytes' : List UInt8}
    (h : a.Produces t bytes) (h' : a.Produces t bytes') : bytes = bytes' := by
  cases h with
  | puff hread hrun =>
    cases h' with
    | puff hread' hrun' =>
      cases hread.symm.trans hread'
      cases hrun.symm.trans hrun'
      rfl
  | huff hread hrun =>
    cases h' with
    | huff hread' hrun' =>
      cases hread.symm.trans hread'
      cases hrun.symm.trans hrun'
      rfl

end Action

/-- All ways in which a run on a tree can end. -/
inductive Ends (o : Options) (t : FileTree) : Outcome × FileTree → Prop
  | failed {outcome : Outcome} (code : outcome.code = 1) : Ends o t (outcome, t)
  | reported {outcome : Outcome} (kind : o.action.isTranscoding = false)
      (code : outcome.code = 0) : Ends o t (outcome, t)
  | printed {outcome : Outcome} (kind : o.action.isTranscoding = true)
      (output : o.action.output? = none) (code : outcome.code = 0)
      (produces : o.action.Produces t outcome.stdout) : Ends o t (outcome, t)
  | stored {outcome : Outcome} {path : String} {location : Location} {bytes : List UInt8}
      (kind : o.action.isTranscoding = true)
      (output : o.action.output? = some path) (writable : t.writable path = .ok location)
      (free : o.force = false → t.isPresent path = false) (code : outcome.code = 0)
      (stdout : outcome.stdout = []) (produces : o.action.Produces t bytes) :
      Ends o t (outcome, t.store location bytes)

variable {t : FileTree} {o : Options} {words : List String}

theorem FileTree.run_eq (h : parse words = .ok o) (t : FileTree) :
    t.run words = (runOptions o : StateM FileTree Outcome) t := by
  unfold FileTree.run Cli.run
  rw [h]

/-! ## The steps of a run -/

section Steps

variable {path : String} {data : List UInt8} {next : List UInt8 → StateM FileTree Outcome}

theorem withInput_ok (h : t.read path = .ok data) :
    (withInput path next : StateM FileTree Outcome) t = next data t := by
  unfold withInput
  rw [FileTree.bind_apply, FileTree.readFile_apply, h]

theorem withInput_error {e : FileError} (h : t.read path = .error e) : withInput path next t =
    (.failure [message ("input file: " ++ path ++ ": " ++ e.message)], t) := by
  unfold withInput
  rw [FileTree.bind_apply, FileTree.readFile_apply, h]
  rfl

theorem deliver_none (force : Bool) (bytes : List UInt8) (log report : List String)
    (t : FileTree) : (deliver force none bytes log report : StateM FileTree Outcome) t =
      ({ code := 0, stdout := bytes, stderr := log ++ report }, t) := rfl

theorem deliver_some (force : Bool) (path : String) (bytes : List UInt8) (log report : List String)
    (t : FileTree) : (deliver force (some path) bytes log report : StateM FileTree Outcome) t =
      if t.isPresent path && !force then
        (.failure (log ++ [message ("output file exists, use -f to overwrite: " ++ path)]), t)
      else match t.writable path with
        | .error e => (.failure (log ++ [message ("output file: " ++ path ++ ": " ++ e.message)]), t)
        | .ok location => ({ code := 0, stderr := log ++ report }, t.store location bytes) := by
  unfold deliver
  dsimp only
  rw [FileTree.bind_apply, FileTree.isPresent_apply]
  dsimp only
  split
  · rfl
  · rw [FileTree.bind_apply, FileTree.writeFile_apply]
    cases t.writable path <;> rfl

end Steps

/-- A run fails on an input that is not read, and goes on with one that is. -/
theorem ends_withInput {path : String} {next : List UInt8 → StateM FileTree Outcome}
    (h : ∀ data, t.read path = .ok data → Ends o t (next data t)) :
    Ends o t (withInput path next t) := by
  cases hread : t.read path with
  | error e =>
    rw [withInput_error hread]
    exact .failed rfl
  | ok data =>
    rw [withInput_ok hread]
    exact h data hread

/-- A run ends with the delivery of the bytes that its action produces. -/
theorem ends_deliver {bytes : List UInt8} (kind : o.action.isTranscoding = true)
    (produces : o.action.Produces t bytes) (log report : List String) :
    Ends o t ((deliver o.force o.action.output? bytes log report : StateM FileTree Outcome) t) := by
  cases houtput : o.action.output? with
  | none =>
    rw [deliver_none]
    exact .printed kind houtput rfl produces
  | some path =>
    rw [deliver_some]
    split
    · exact .failed rfl
    · next hfree =>
      split
      · exact .failed rfl
      · next location hwritable =>
        refine .stored kind houtput hwritable (fun hforce => ?_) rfl rfl produces
        simpa [hforce] using hfree

theorem code_fixedOutcome (r : Reporting) :
    (fixedOutcome r).code = 0 ∨ (fixedOutcome r).code = 1 := by
  suffices h : ∀ f, f = fixedOutcome → (f r).code = 0 ∨ (f r).code = 1 from h _ rfl
  unfold fixedOutcome
  -- Under the binder of `fixedOutcome`, before anything can evaluate the tables.
  generalize Codec.buildFixed Codec.new = built
  rintro _ rfl
  cases built with
  | error e codec => exact .inr rfl
  | ok _ codec => exact .inl rfl

/-- A run of an accepted command line ends in one of the four ways. -/
theorem ends_run (h : parse words = .ok o) (t : FileTree) : Ends o t (t.run words) := by
  rw [FileTree.run_eq h]
  obtain ⟨action, force, reporting⟩ := o
  cases action with
  | puff container input output =>
    refine ends_withInput fun data hread => ?_
    cases hrun : Codec.puff data container Codec.new with
    | error e codec => exact .failed rfl
    | ok header codec =>
      exact ends_deliver (o := ⟨.puff container input output, force, reporting⟩) rfl
        (.puff hread hrun) _ _
  | huff isFinal input output =>
    refine ends_withInput fun data hread => ?_
    dsimp only
    split
    · exact .failed rfl
    · cases hrun : Codec.huff data isFinal Codec.new with
      | error e codec => exact .failed rfl
      | ok header codec =>
        exact ends_deliver (o := ⟨.huff isFinal input output, force, reporting⟩) rfl
          (.huff hread hrun) _ _
  | verify container input =>
    refine ends_withInput fun data hread => ?_
    cases hrun : Codec.verify data container Codec.new with
    | error e codec => exact .failed rfl
    | ok verified codec =>
      show Ends _ t (verifyOutcome _ _ _ _, t)
      unfold verifyOutcome
      split
      · exact .reported rfl rfl
      · exact .failed rfl
  | fixed =>
    unfold runOptions
    dsimp only
    rw [FileTree.pure_apply]
    rcases code_fixedOutcome reporting with hcode | hcode
    · exact .reported rfl hcode
    · exact .failed hcode

/-! ## Delivery -/

/-- What a successful run leaves as its result: standard output, or the file at the output path. -/
structure Delivered (output : Option String) (bytes : List UInt8) (r : Outcome × FileTree) :
    Prop where
  code : r.1.code = 0
  printed : output = none → r.1.stdout = bytes
  stored : ∀ path, output = some path → r.2.read path = .ok bytes

/-- Whether a result can be stored at the output path, if there is one. -/
def Deliverable (force : Bool) (output : Option String) (t : FileTree) : Prop :=
  ∀ path, output = some path →
    (∃ location, t.writable path = .ok location) ∧ (force = false → t.isPresent path = false)

theorem deliverable_none (force : Bool) (t : FileTree) : Deliverable force none t :=
  fun _ h => nomatch h

theorem deliverable_some {force : Bool} {path : String} {location : Location}
    (hwritable : t.writable path = .ok location) (hfree : force = false → t.isPresent path = false) :
    Deliverable force (some path) t := by
  intro other hother
  cases hother
  exact ⟨⟨location, hwritable⟩, hfree⟩

theorem delivered_deliver {force : Bool} {output : Option String} (h : Deliverable force output t)
    (bytes : List UInt8) (log report : List String) :
    Delivered output bytes
      ((deliver force output bytes log report : StateM FileTree Outcome) t) := by
  cases output with
  | none => exact ⟨rfl, fun _ => rfl, nofun⟩
  | some path =>
    obtain ⟨⟨location, hwritable⟩, hfree⟩ := h path rfl
    have hopen : ¬ (t.isPresent path && !force) = true := by
      cases force
      · simp [hfree rfl]
      · simp
    rw [deliver_some, if_neg hopen, hwritable]
    refine ⟨rfl, nofun, fun other hother => ?_⟩
    cases hother
    exact FileTree.read_store hwritable bytes

section Delivery

variable {container : Container} {isFinal : Bool} {input : String} {output : Option String}
  {data : List UInt8} {c : Codec}

theorem delivered_puff {p : Puffed} (h : parse words = .ok o)
    (ha : o.action = .puff container input output) (hread : t.read input = .ok data)
    (hrun : Codec.puff data container Codec.new = .ok p c) (ho : Deliverable o.force output t) :
    Delivered output p.puff (t.run words) := by
  rw [FileTree.run_eq h]
  unfold runOptions runPuff
  rw [ha]
  dsimp only
  rw [withInput_ok hread, hrun]
  exact delivered_deliver ho _ _ _

theorem delivered_huff {x : Huffed} (h : parse words = .ok o)
    (ha : o.action = .huff isFinal input output) (hread : t.read input = .ok data)
    (hrun : Codec.huff data isFinal Codec.new = .ok x c) (ho : Deliverable o.force output t) :
    Delivered output x.bytes (t.run words) := by
  have hsize : ¬ maxPuffSize < data.length :=
    Nat.not_lt.mpr (Codec.length_huff_le Codec.sized_new hrun).1
  rw [FileTree.run_eq h]
  unfold runOptions runHuff
  rw [ha]
  dsimp only
  rw [withInput_ok hread]
  show Delivered output x.bytes ((ite _ _ _ : StateM FileTree Outcome) t)
  rw [if_neg hsize, hrun]
  exact delivered_deliver ho _ _ _

end Delivery

/-! ## Effect on files -/

/-- What the run of an accepted command line does to the files of a tree `t` that it leaves as
`t'`. -/
structure FileEffect (o : Options) (t : FileTree) (outcome : Outcome) (t' : FileTree) : Prop where
  code : outcome.code = 0 ∨ outcome.code = 1
  /-- A failed run has changed nothing. -/
  failed : outcome.code = 1 → t' = t
  /-- A command that only reports changes nothing. -/
  reported : o.action.isTranscoding = false → t' = t
  /-- Without a path the result is standard output, and nothing is changed. -/
  printed : o.action.isTranscoding = true → o.action.output? = none →
    t' = t ∧ (outcome.code = 0 → o.action.Produces t outcome.stdout)
  /-- With a path the result is the content of the file there, and standard output is empty. -/
  stored : ∀ path, o.action.output? = some path → outcome.code = 0 →
    outcome.stdout = [] ∧ ∃ bytes, o.action.Produces t bytes ∧ t'.read path = .ok bytes
  /-- A file at any other location than that of the output path is as before. -/
  others : ∀ location, (∀ path, o.action.output? = some path → t.writable path ≠ .ok location) →
    t'.find? location = t.find? location
  /-- Without force an output path that leads to something makes the run fail. -/
  refused : ∀ path, o.action.output? = some path → t.isPresent path = true → o.force = false →
    outcome.code = 1
  /-- Without force no file that is there is changed. -/
  guarded : o.force = false → ∀ location content, t.find? location = some content →
    t'.find? location = some content

/-- A run that leaves the tree alone has an effect only on its outcome. -/
theorem FileEffect.of_same {outcome : Outcome} (hcode : outcome.code = 0 ∨ outcome.code = 1)
    (hprinted : o.action.isTranscoding = true → outcome.code = 0 →
      o.action.output? = none ∧ o.action.Produces t outcome.stdout) :
    FileEffect o t outcome t where
  code := hcode
  failed _ := rfl
  reported _ := rfl
  printed kind _ := ⟨rfl, fun code => (hprinted kind code).2⟩
  stored path output code := by
    have kind : o.action.isTranscoding = true := Action.isTranscoding_of_output? output
    rw [(hprinted kind code).1] at output
    cases output
  others _ _ := rfl
  refused path output _ _ := hcode.resolve_left fun code => by
    have kind : o.action.isTranscoding = true := Action.isTranscoding_of_output? output
    rw [(hprinted kind code).1] at output
    cases output
  guarded _ _ _ h := h

theorem Ends.fileEffect {r : Outcome × FileTree} (h : Ends o t r) : FileEffect o t r.1 r.2 := by
  cases h with
  | failed code => exact .of_same (.inr code) fun _ hzero => absurd (code.symm.trans hzero) (by simp)
  | reported kind code =>
    exact .of_same (.inl code) fun htrans => absurd (kind.symm.trans htrans) (by simp)
  | printed kind output code produces => exact .of_same (.inl code) fun _ _ => ⟨output, produces⟩
  | @stored outcome path location bytes kind output writable free code stdout produces =>
    refine ⟨.inl code, fun hone => ?_, fun hkind => ?_, fun _ hnone => ?_, fun path' hpath _ => ?_,
      fun other hother => ?_, fun path' hpath hpresent hforce => ?_,
      fun hforce other content hfind => ?_⟩
    · exact absurd (code.symm.trans hone) (by simp)
    · exact absurd (kind.symm.trans hkind) (by simp)
    · cases output.symm.trans hnone
    · cases output.symm.trans hpath
      exact ⟨stdout, bytes, produces, FileTree.read_store writable bytes⟩
    · rw [FileTree.find?_store, if_neg]
      rintro rfl
      exact hother path output writable
    · cases output.symm.trans hpath
      rw [free hforce] at hpresent
      cases hpresent
    · rw [FileTree.find?_store, if_neg]
      · exact hfind
      · rintro rfl
        rw [FileTree.find?_of_not_isPresent writable (free hforce)] at hfind
        cases hfind

/-- The file system frame of the command line: what is changed, and only after all else has
succeeded, is the file at the output path. -/
theorem fileEffect_run (h : parse words = .ok o) (t : FileTree) :
    FileEffect o t (t.run words).1 (t.run words).2 :=
  (ends_run h t).fileEffect

/-- The effect of a command line with an output path, on a tree that holds a stream. The run succeeds,
so the file at the path holds what `puff` makes of the stream and nothing is printed; the stream is as it
was. -/
theorem fileEffect_plainStream :
    let t := FileTree.ofWorking [("a", Codec.plainStream)]
    ∃ o outcome t', parse ["puff", "a", "b"] = .ok o ∧ t.run ["puff", "a", "b"] = (outcome, t') ∧
      FileEffect o t outcome t' ∧ outcome.code = 0 ∧ outcome.stdout = [] ∧
      t'.read "b" = .ok Header.plain.puff ∧ t'.find? ⟨.working, "a"⟩ = some Codec.plainStream := by
  intro t
  have hparse : parse ["puff", "a", "b"] =
    .ok ⟨.puff .raw "a" (some "b"), false, ⟨false, 0, false⟩⟩ := rfl
  have hread : t.read "a" = .ok Codec.plainStream := rfl
  obtain ⟨c, hok⟩ := Codec.puff_plainStream Codec.sized_new
  have hwritable : t.writable "b" = .ok ⟨.working, "b"⟩ := rfl
  have hdeliverable : Deliverable false (some "b") t := deliverable_some hwritable fun _ => rfl
  have hdelivered : Delivered (some "b") Header.plain.puff (t.run ["puff", "a", "b"]) :=
    delivered_puff (p := Header.plain.puffed true 0) hparse rfl hread hok hdeliverable
  have heffect := fileEffect_run hparse t
  -- From here on nothing depends on how the run is computed.
  rcases hrun : t.run ["puff", "a", "b"] with ⟨outcome, t'⟩
  rw [hrun] at hdelivered heffect
  obtain ⟨hstdout, bytes, hbytes, hfile⟩ := heffect.stored "b" rfl hdelivered.code
  obtain rfl : bytes = Header.plain.puff := hbytes.unique (.puff hread hok)
  exact ⟨_, outcome, t', hparse, rfl, heffect, hdelivered.code, hstdout, hfile,
    heffect.guarded rfl _ _ rfl⟩

/-! ## The commands together -/

section Results

variable {container : Container} {isFinal : Bool} {input : String} {output : Option String}
  {data : List UInt8} {c : Codec}

/-- A run that succeeds has delivered what its action produces. -/
theorem produces_of_code (h : parse words = .ok o) (kind : o.action.isTranscoding = true)
    (hcode : (t.run words).1.code = 0) :
    ∃ bytes, o.action.Produces t bytes ∧ Delivered o.action.output? bytes (t.run words) := by
  have heffect := (ends_run h t).fileEffect
  cases houtput : o.action.output? with
  | none => exact ⟨_, (heffect.printed kind houtput).2 hcode, hcode, fun _ => rfl, nofun⟩
  | some path =>
    obtain ⟨-, bytes, hbytes, hfile⟩ := heffect.stored path houtput hcode
    refine ⟨bytes, hbytes, hcode, nofun, fun other hother => ?_⟩
    cases hother
    exact hfile

/-- A run of `puff` that succeeds has read and decoded its input, and has delivered the result. -/
theorem puff_of_code (h : parse words = .ok o) (ha : o.action = .puff container input output)
    (hcode : (t.run words).1.code = 0) : ∃ data p c, t.read input = .ok data ∧
      Codec.puff data container Codec.new = .ok p c ∧ Delivered output p.puff (t.run words) := by
  obtain ⟨bytes, hproduces, hdelivered⟩ := produces_of_code h (by rw [ha]; rfl) hcode
  rw [ha] at hproduces hdelivered
  cases hproduces with
  | puff hdata hrun => exact ⟨_, _, _, hdata, hrun, hdelivered⟩

/-- A run of `huff` whose result can be delivered succeeds on what any codec accepts, and on nothing
else: a buffer that is refused for its length would have been rejected in any case. -/
theorem code_huff_iff (hc : c.Sized) (h : parse words = .ok o)
    (ha : o.action = .huff isFinal input output) (hread : t.read input = .ok data)
    (ho : Deliverable o.force output t) :
    (t.run words).1.code = 0 ↔ ∃ x c', Codec.huff data isFinal c = .ok x c' := by
  constructor
  · intro hcode
    obtain ⟨bytes, hproduces, -⟩ := produces_of_code h (by rw [ha]; rfl) hcode
    rw [ha] at hproduces
    cases hproduces with
    | huff hdata hrun =>
      cases hread.symm.trans hdata
      obtain ⟨header, rfl, hv⟩ := Codec.huff_ok Codec.sized_new hrun
      obtain ⟨bytes, c', hok, -⟩ := Codec.huff_run hc hv isFinal
      exact ⟨_, c', hok⟩
  · rintro ⟨x, c', hrun⟩
    obtain ⟨header, rfl, hv⟩ := Codec.huff_ok hc hrun
    obtain ⟨bytes, d, hok, -⟩ := Codec.huff_run Codec.sized_new hv isFinal
    exact (delivered_huff h ha hread hok ho).code

/-- A run of `verify` succeeds if its input is read and found to be the same. -/
theorem code_verify_iff (h : parse words = .ok o) (ha : o.action = .verify container input) :
    (t.run words).1.code = 0 ↔ ∃ data v c, t.read input = .ok data ∧
      Codec.verify data container Codec.new = .ok v c ∧ v.isSame = true := by
  rw [FileTree.run_eq h]
  unfold runOptions runVerify
  rw [ha]
  dsimp only
  cases hread : t.read input with
  | error e =>
    rw [withInput_error hread]
    simp [Outcome.failure]
  | ok data =>
    rw [withInput_ok hread]
    cases hrun : Codec.verify data container Codec.new with
    | error e c => simp [hrun, FileTree.pure_apply, Outcome.failure]
    | ok v c =>
      show (verifyOutcome _ _ _ v).code = 0 ↔ _
      unfold verifyOutcome
      cases hsame : v.isSame <;> simp [hrun, hsame, Outcome.failure]

/-- What `huff` makes of the output of `puff` restores the header. -/
theorem restores_huff {p : Puffed} (hpuff : Codec.puff data container Codec.new = .ok p c)
    (h : parse words = .ok o) (ha : o.action = .huff p.block.isFinal input output)
    (hread : t.read input = .ok p.puff) (ho : Deliverable o.force output t) :
    ∃ bytes, Delivered output bytes (t.run words) ∧ Huffed.Restores ⟨bytes, p.bits⟩ data p := by
  obtain ⟨x, d, hhuff, hx⟩ := Codec.huff_restores Codec.sized_new Codec.sized_new hpuff
  refine ⟨x.bytes, delivered_huff h ha hread hhuff ho, ?_⟩
  obtain ⟨bytes, bits⟩ := x
  obtain rfl : bits = p.bits := hx.bits_eq
  exact hx

end Results

/-! ## Size limits -/

/-- The size limits suffice for every input. `puff` and `huff` never run out of room, what they
return and accept is within the limits, and the limit on the input of the command `huff` changes
nothing about which inputs it accepts. -/
theorem sizeLimits_suffice {c : Codec} (hc : c.Reachable) :
    (∀ data container c', Codec.puff data container c ≠ .error .insufficientOutput c') ∧
    (∀ bytes isFinal c', Codec.huff bytes isFinal c ≠ .error .insufficientOutput c') ∧
    (∀ data container p c', Codec.puff data container c = .ok p c' →
      p.puff.length ≤ maxPuffSize) ∧
    (∀ bytes isFinal x c', Codec.huff bytes isFinal c = .ok x c' →
      bytes.length ≤ maxPuffSize ∧ x.bits ≤ maxHeaderBits) ∧
    ∀ (t : FileTree) (words : List String) (o : Options) (isFinal : Bool) (input : String)
      (output : Option String) (bytes : List UInt8), parse words = .ok o →
      o.action = .huff isFinal input output → t.read input = .ok bytes →
      Deliverable o.force output t →
      ((t.run words).1.code = 0 ↔ ∃ x c', Codec.huff bytes isFinal c = .ok x c') := by
  have hs := hc.sized
  refine ⟨fun data container c' hrun => ?_, fun bytes isFinal c' hrun => ?_,
    fun data container p c' hrun => ?_, fun bytes isFinal x c' hrun => ?_,
    fun t words o isFinal input output bytes h ha hread ho => ?_⟩
  · exact Codec.failsOnly_puff hs data container _ _ hrun rfl
  · exact Codec.failsOnly_huff hs bytes isFinal _ _ hrun rfl
  · exact Codec.length_puff_le hs hrun
  · exact Codec.length_huff_le hs hrun
  · exact code_huff_iff hs h ha hread ho

/-- The limits for a codec that has decoded a stream before. -/
theorem sizeLimits_plainStream :
    let c := finalState (Codec.puff Codec.plainStream .raw Codec.new)
    c.Reachable ∧
      (∃ p c', Codec.puff Codec.plainStream .raw c = .ok p c' ∧ p.puff.length ≤ maxPuffSize) ∧
      ∀ c', Codec.huff (List.replicate 330 0) true c ≠ .error .insufficientOutput c' := by
  intro c
  have hc : c.Reachable := Codec.Reachable.new.puff Codec.plainStream .raw
  have h := sizeLimits_suffice hc
  obtain ⟨c', hok⟩ := Codec.puff_plainStream hc.sized
  exact ⟨hc, ⟨_, c', hok, h.2.2.1 _ _ _ _ hok⟩, h.2.1 _ _⟩

/-- The commands fit together, with a new codec each: `verify` succeeds on the inputs that `puff`
succeeds on and never finds a difference, and whenever `puff` has succeeded, `huff` restores the bits
of the header from its result. -/
theorem restores_run {t : FileTree} {verifyWords puffWords : List String} {ov op : Options}
    {container : Container} {input : String} {output : Option String}
    (hv : parse verifyWords = .ok ov) (hverify : ov.action = .verify container input)
    (hp : parse puffWords = .ok op) (hpuff : op.action = .puff container input output) :
    (output = none → ((t.run verifyWords).1.code = 0 ↔ (t.run puffWords).1.code = 0)) ∧
    (∀ data v c, t.read input = .ok data →
      Codec.verify data container Codec.new = .ok v c → v.isSame = true) ∧
    ((t.run puffWords).1.code = 0 → ∃ data p c, t.read input = .ok data ∧
      Codec.puff data container Codec.new = .ok p c ∧
      container.strip data = .ok (data.drop p.containerSize) ∧
      Delivered output p.puff (t.run puffWords) ∧
      ∀ (t' : FileTree) (words : List String) (o : Options) (input' : String)
        (output' : Option String), parse words = .ok o →
        o.action = .huff p.block.isFinal input' output' → t'.read input' = .ok p.puff →
        Deliverable o.force output' t' →
        ∃ bytes, Delivered output' bytes (t'.run words) ∧
          Huffed.Restores ⟨bytes, p.bits⟩ data p) := by
  refine ⟨?_, ?_, ?_⟩
  · rintro rfl
    rw [code_verify_iff hv hverify]
    constructor
    · rintro ⟨data, v, c, hread, hrun, -⟩
      obtain ⟨c', hok⟩ := Codec.puff_of_verify hrun
      exact (delivered_puff hp hpuff hread hok (deliverable_none _ _)).code
    · intro hcode
      obtain ⟨data, p, c, hread, hok, -⟩ := puff_of_code hp hpuff hcode
      obtain ⟨c', hrun⟩ := Codec.verify_run Codec.sized_new hok
      exact ⟨data, _, c', hread, hrun, rfl⟩
  · intro data v c hread hrun
    obtain ⟨c', hok⟩ := Codec.puff_of_verify hrun
    obtain ⟨c'', hsame⟩ := Codec.verify_run Codec.sized_new hok
    injection hrun.symm.trans hsame with hv
    rw [hv]
  · intro hcode
    obtain ⟨data, p, c, hread, hok, hdelivered⟩ := puff_of_code hp hpuff hcode
    obtain ⟨stream, hd, isFinal, hstrip, -, -, rfl, -⟩ := Codec.puff_ok Codec.sized_new hok
    refine ⟨data, _, c, hread, hok, ?_, hdelivered, ?_⟩
    · rw [hstrip]
      exact congrArg _ (Container.drop_of_strip hstrip).symm
    · intro t' words o input' output' hparse haction hread' ho
      exact restores_huff hok hparse haction hread' ho

/-- The commands on a tree that holds a stream, and on one that holds what `puff` prints for it. -/
theorem restores_plainStream :
    let t := FileTree.ofWorking [("a", Codec.plainStream)]
    let t' := FileTree.ofWorking [("b", Header.plain.puff)]
    (t.run ["verify", "a"]).1.code = 0 ∧ (t.run ["puff", "a"]).1.stdout = Header.plain.puff ∧
      ∃ bytes, Delivered none bytes (t'.run ["huff", "--final", "b"]) ∧
        Huffed.Restores ⟨bytes, (Header.plain.puffed true 0).bits⟩ Codec.plainStream
          (Header.plain.puffed true 0) := by
  intro t t'
  have hparse : parse ["puff", "a"] = .ok ⟨.puff .raw "a" none, false, ⟨false, 0, false⟩⟩ := rfl
  have hread : t.read "a" = .ok Codec.plainStream := rfl
  have hverify : parse ["verify", "a"] = .ok ⟨.verify .raw "a", false, ⟨false, 0, false⟩⟩ := rfl
  have h := restores_run (t := t) hverify rfl hparse rfl
  obtain ⟨c, hok⟩ := Codec.puff_plainStream Codec.sized_new
  have hputs : Delivered none Header.plain.puff (t.run ["puff", "a"]) :=
    delivered_puff (p := Header.plain.puffed true 0) hparse rfl hread hok (deliverable_none _ _)
  obtain ⟨data, p, d, hdata, hrun, -, hdelivered, hhuff⟩ := h.2.2 hputs.code
  obtain rfl : Codec.plainStream = data := Except.ok.inj (hread.symm.trans hdata)
  injection hrun.symm.trans hok with hp
  subst hp
  have hparse' : parse ["huff", "--final", "b"] =
    .ok ⟨.huff true "b" none, false, ⟨false, 0, false⟩⟩ := by cbv
  have hread' : t'.read "b" = .ok Header.plain.puff := rfl
  exact ⟨(h.1 rfl).mpr hputs.code, hdelivered.printed rfl,
    hhuff t' _ _ "b" none hparse' rfl hread' (deliverable_none _ _)⟩

end DeflateHeader.Cli
