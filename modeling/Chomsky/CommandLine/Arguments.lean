import Chomsky.Text.Lines

/-!
# Arguments of the command line

* `Options` — what a run is asked to do.
* `Request` — a run, or one of the things asked for instead.
* `Request.ofArguments` — the request that a list of arguments makes.

Arguments are read from left to right, and the first that decides the request decides it alone.
A long option takes its value after an equals sign or from the next argument; short options may be
put together behind one dash, where one that takes a value takes the rest.

Principal results: `ofArguments_nil` — no arguments ask for a run with the usual options;
`ofArguments_dashes` — after two dashes alone, an argument is a file name whatever it looks like.
-/

namespace Chomsky

/-- What a run is asked to do. -/
structure Options where
  /-- The file of the grammar; none stands for standard input. -/
  grammarFile : Option Text := none
  start : Option Char := none
  /-- The pass to stop after. -/
  stopAfter : Option Text := none
  sorted : Bool := false
  json : Bool := false
  configFile : Option Text := none
  verbosity : Nat := 0
  deriving DecidableEq, Repr

/-- What the arguments ask for. -/
inductive Request where
  | run (options : Options)
  | version
  | help
  /-- The arguments are not understood. -/
  | refused
  deriving DecidableEq, Repr

/-- The options without a value. -/
inductive Flag where
  | sorted
  | json
  | verbose
  | version
  | help
  deriving DecidableEq, Repr

/-- The options with a value. -/
inductive Setting where
  | start
  | stopAfter
  | config
  deriving DecidableEq, Repr

/-- What one argument does. -/
inductive Effect where
  | proceed (options : Options)
  /-- The next argument is the value of a setting. -/
  | await (options : Options) (setting : Setting)
  | decide (request : Request)
  deriving DecidableEq, Repr

namespace Options

/-- A flag may be given once, but verbosity adds up. -/
def raise (o : Options) : Flag → Effect
  | .sorted => if o.sorted then .decide .refused else .proceed { o with sorted := true }
  | .json => if o.json then .decide .refused else .proceed { o with json := true }
  | .verbose => .proceed { o with verbosity := o.verbosity + 1 }
  | .version => .decide .version
  | .help => .decide .help

/-- A setting may be given once.  A start symbol is one character; a file name is not empty. -/
def set (o : Options) (value : Text) : Setting → Effect
  | .start =>
    match o.start, value with
    | none, [c] => .proceed { o with start := some c }
    | _, _ => .decide .refused
  | .stopAfter =>
    if o.stopAfter.isSome then .decide .refused
    else .proceed { o with stopAfter := some value }
  | .config =>
    if o.configFile.isSome || value.isEmpty then .decide .refused
    else .proceed { o with configFile := some value }

/-- The file of the grammar; there is at most one. -/
def setFile (o : Options) (value : Text) : Effect :=
  if o.grammarFile.isSome || value.isEmpty then .decide .refused
  else .proceed { o with grammarFile := some value }

/-- The long names. -/
def longFlag? (name : Text) : Option Flag :=
  [("sorted".toList, Flag.sorted), ("json".toList, .json), ("verbose".toList, .verbose),
    ("version".toList, .version), ("help".toList, .help)].lookup name

def longSetting? (name : Text) : Option Setting :=
  [("start".toList, Setting.start), ("stop-after".toList, .stopAfter),
    ("config".toList, .config)].lookup name

/-- The short names. -/
def shortFlag? (c : Char) : Option Flag :=
  [('v', Flag.verbose), ('V', .version), ('h', .help)].lookup c

def shortSetting? (c : Char) : Option Setting :=
  [('s', Setting.start), ('c', .config)].lookup c

/-- An argument behind two dashes. -/
def readLong (o : Options) (argument : Text) : Effect :=
  let name := argument.takeWhile (· != '=')
  match longFlag? name, longSetting? name, argument.dropWhile (· != '=') with
  | some flag, _, [] => o.raise flag
  | _, some setting, [] => .await o setting
  | _, some setting, _ :: value => o.set value setting
  | _, none, _ => .decide .refused

/-- Short options behind one dash. -/
def readShort (o : Options) : Text → Effect
  | [] => .proceed o
  | c :: rest =>
    match shortFlag? c with
    | some flag =>
      match o.raise flag with
      | .proceed o => readShort o rest
      | effect => effect
    | none =>
      match shortSetting? c, rest with
      | some setting, [] => .await o setting
      | some setting, '=' :: value => o.set value setting
      | some setting, value => o.set value setting
      | none, _ => .decide .refused

/-- An argument that is not the value of a setting. -/
def readArgument (o : Options) : Text → Effect
  | '-' :: '-' :: long => o.readLong long
  | '-' :: c :: short => o.readShort (c :: short)
  | value => o.setFile value

/-- Whether an argument is taken for options: it begins with a dash and is more than that. -/
def isOption : Text → Bool
  | '-' :: _ :: _ => true
  | _ => false

/-- Arguments of which none is an option. -/
def readFiles (o : Options) : List Text → Request
  | [] => .run o
  | value :: rest =>
    match o.setFile value with
    | .proceed o => readFiles o rest
    | .await _ _ => .refused
    | .decide request => request

/-- All arguments from a given point on; `pending` is a setting whose value comes next. -/
def readArguments (o : Options) (pending : Option Setting) : List Text → Request
  | [] => if pending.isSome then .refused else .run o
  | argument :: rest =>
    let effect : Effect :=
      match pending with
      | some setting => if isOption argument then .decide .refused else o.set argument setting
      | none => o.readArgument argument
    if pending = none ∧ argument = ['-', '-'] then o.readFiles rest
    else
      match effect with
      | .proceed o => readArguments o none rest
      | .await o setting => readArguments o (some setting) rest
      | .decide request => request

end Options

/-- The request that a list of arguments makes. -/
def Request.ofArguments (arguments : List Text) : Request :=
  Options.readArguments {} none arguments

theorem Request.ofArguments_nil : ofArguments [] = .run {} := rfl

theorem Request.ofArguments_dashes {file : Text} (h : file ≠ []) :
    ofArguments [['-', '-'], file] = .run { grammarFile := some file } := by
  cases file with
  | nil => exact absurd rfl h
  | cons c file => rfl

end Chomsky
