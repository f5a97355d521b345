import Chomsky.CommandLine.Arguments
import Chomsky.Config.Json
import Chomsky.Event
import Chomsky.Grammar.Json
import Chomsky.Grammar.Printer
import Chomsky.Grammar.Reader
import Chomsky.Registry

/-!
# Runs of the command line

* `Outcome` — exit code, standard output and standard error of a run.
* `Options.process` — what a run makes of a configuration and the bytes of a grammar.
* `Request.answer` — what a request is answered with, given a way to read files.

Configuration first, then the grammar, then the passes: the first failure ends the run.
-/

namespace Chomsky

/-- What a run leaves behind. -/
structure Outcome where
  exitCode : Nat
  output : String
  /-- The lines of standard error. -/
  errors : List String
  deriving DecidableEq, Repr

/-- An event as a line of the log; a level takes five places, and the lines of a longer message
are indented. -/
def Event.line (e : Event) : String :=
  let level := e.level.name.toList
  let padded : Text := level ++ List.replicate (5 - level.length) ' '
  let indented : Text := e.message.toList.flatMap fun c =>
    if c = '\n' then ['\n', ' ', ' ', ' ', ' '] else [c]
  s!"[{padded.string} {e.source}] {indented.string}"

namespace Options

/-- The events that are logged. -/
def isLogged (o : Options) (e : Event) : Bool :=
  match o.verbosity with
  | 0 => false
  | 1 => Level.info.shows e.level
  | _ => Level.debug.shows e.level

def logLines (o : Options) (log : List Event) : List String :=
  (log.filter o.isLogged).map Event.line

def succeeded (o : Options) (log : List Event) (output : String) : Outcome :=
  ⟨0, output, o.logLines log⟩

def failed (o : Options) (log : List Event) (e : GrammarError) : Outcome :=
  ⟨1, "", o.logLines log ++ [s!"Error: {e.report}"]⟩

/-- The passes to run. -/
def chain (o : Options) : Except GrammarError Chain :=
  match o.stopAfter with
  | some last => Registry.default.upTo last.string
  | none => .ok .standard

/-- The configuration with what the options say in its place. -/
def override (o : Options) (c : Config) : Config :=
  { c with start := o.start.getD c.start, sorted := o.sorted || c.sorted }

/-- A grammar as it is printed. -/
def print (o : Options) (c : Config) (g : Grammar) : String :=
  let g := if c.sorted then g.sorted else g
  if o.json then g.jsonText.string ++ "\n" else g.text.string

/-- The configuration that the bytes of a file spell. -/
def configOfBytes (bytes : Except FileFault Text.Bytes) : Except GrammarError Config :=
  match bytes with
  | .error fault => .error (.file fault)
  | .ok bytes =>
    match Text.decode? bytes with
    | none => .error (.file .notUtf8)
    | some t => Config.ofJson t

/-- Reads the grammar, runs the passes and prints the result. -/
def process (o : Options) (c : Config) (bytes : Except FileFault Text.Bytes) : Outcome :=
  let log := (o.grammarFile.map fun path => Event.loading path.string).toList
  match bytes with
  | .error fault => o.failed log (.file fault)
  | .ok bytes =>
    match Grammar.read c bytes with
    | .error e => o.failed log e
    | .ok g =>
      let log := log ++ [.loaded g.rules.length]
      match o.chain with
      | .error e => o.failed log e
      | .ok chain =>
        let log := log ++ .running chain.name :: chain.toPass.events g
        match chain.apply g with
        | .error e => o.failed log e
        | .ok h => o.succeeded log (o.print c h)

end Options

def versionText : String := "cfg-normalizer 0.1.0\n"

def usageText : String :=
  "Usage: cfg-normalize [--start <char>] [--stop-after <stage>] [--sorted] [--json] " ++
    "[--config <file>] [--verbose] [grammar file]\n"

/-- Answers a request; `read` gives the bytes of a file, or of standard input where no file is
named. -/
def Request.answer {m : Type → Type} [Monad m]
    (read : Option Text → m (Except FileFault Text.Bytes)) : Request → m Outcome
  | .version => pure ⟨0, versionText, []⟩
  | .help => pure ⟨0, usageText, []⟩
  | .refused => pure ⟨2, "", [usageText]⟩
  | .run o => do
    let config ← match o.configFile with
      | none => pure (.ok {})
      | some path => do
        let bytes ← read (some path)
        pure (Options.configOfBytes bytes)
    match config with
    | .error e => pure (o.failed [] e)
    | .ok c => do
      let bytes ← read o.grammarFile
      pure (o.process (o.override c) bytes)

end Chomsky
