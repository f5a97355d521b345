import Chomsky.CommandLine.Run

/-!
# Runs in a directory held in memory

What a run does depends on the system only through the files it reads.  Here they are those of one
directory without subdirectories, so that the outcome of a run is a function of its arguments.

* `Directory` — the files of a directory by name, and what stands on standard input.
* `Place` — where a path leads: to the directory, to one around it, or to a file.
* `Directory.step`, `Directory.walk` — a path is followed name by name.  A single dot and an empty
  name stay where they are, two dots lead outside, and nothing follows a file.  Outside, no file
  is found.
* `Directory.read` — the bytes that a path leads to.
* `Directory.outcome` — the run that arguments ask for.

Principal results: `read_of_lookup` — a file of the directory is read under its name;
`walk_append` — a path is followed as its parts are.
-/

namespace Chomsky

structure Directory where
  /-- The bytes of standard input. -/
  input : Text.Bytes := []
  files : List (Text × Text.Bytes) := []

/-- Where a path leads. -/
inductive Place where
  /-- The directory itself. -/
  | inside
  /-- A directory around it. -/
  | outside
  | file (bytes : Text.Bytes)
  deriving DecidableEq, Repr

namespace Directory

/-- The longest name, in bytes. -/
def nameLimit : Nat := 255

/-- The longest path, in bytes. -/
def pathLimit : Nat := 4095

/-- A name that is neither empty nor made for moving between directories. -/
def isPlain (name : Text) : Bool := name != [] && name != ['.'] && name != ['.', '.']

/-- A place one plain name further. -/
def enter (d : Directory) (p : Place) (name : Text) : Except FileFault Place :=
  if nameLimit < (Text.encode name).length then .error .nameTooLong
  else
    match p, d.files.lookup name with
    | .inside, some bytes => .ok (.file bytes)
    | _, _ => .error .notFound

/-- A place one name further. -/
def step (d : Directory) (p : Place) (name : Text) : Except FileFault Place :=
  match p with
  | .file _ => .error .notADirectory
  | p =>
    if isPlain name then d.enter p name
    else if name = ['.', '.'] then .ok .outside
    else .ok p

/-- Follows names from a place, up to the first that leads nowhere. -/
def walk (d : Directory) (p : Place) : List Text → Except FileFault Place
  | [] => .ok p
  | name :: names =>
    match d.step p name with
    | .error fault => .error fault
    | .ok q => walk d q names

/-- The place of a path.  One that begins with a slash is followed from outside. -/
def locate (d : Directory) (path : Text) : Except FileFault Place :=
  if path.isEmpty then .error .notFound
  else if pathLimit < (Text.encode path).length then .error .nameTooLong
  else d.walk (if path.head? = some '/' then .outside else .inside) (path.splitOnP (· == '/'))

/-- The bytes of a file, or of standard input where no file is named. -/
def read (d : Directory) : Option Text → Except FileFault Text.Bytes
  | none => .ok d.input
  | some path =>
    match d.locate path with
    | .error fault => .error fault
    | .ok (.file bytes) => .ok bytes
    | .ok _ => .error .isADirectory

/-- What comes of a list of arguments. -/
def outcome (d : Directory) (arguments : List Text) : Outcome :=
  Id.run ((Request.ofArguments arguments).answer d.read)

theorem walk_append (d : Directory) (p : Place) (names more : List Text) :
    d.walk p (names ++ more) =
      match d.walk p names with
      | .error fault => .error fault
      | .ok q => d.walk q more := by
  induction names generalizing p with
  | nil => rfl
  | cons name names ih =>
    simp only [List.cons_append, walk]
    cases d.step p name with
    | error fault => rfl
    | ok q => exact ih q

/-- **A file of the directory is read under its name.** -/
theorem read_of_lookup {d : Directory} {name : Text} {bytes : Text.Bytes}
    (hn : isPlain name = true) (hs : '/' ∉ name) (hl : (Text.encode name).length ≤ nameLimit)
    (hf : d.files.lookup name = some bytes) : d.read (some name) = .ok bytes := by
  have hne : name ≠ [] := by rintro rfl; exact absurd hn (by decide)
  have hhead : name.head? ≠ some '/' := fun h => hs (List.mem_of_head? h)
  have hsplit : name.splitOnP (· == '/') = [name] :=
    List.splitOnP_eq_singleton fun c hc => by
      simpa using fun h : c = '/' => hs (h ▸ hc)
  have hpath : ¬ pathLimit < (Text.encode name).length := by
    have : nameLimit < pathLimit := by decide
    omega
  simp [read, locate, hne, hpath, hhead, hsplit, walk, step, hn, enter, Nat.not_lt.2 hl, hf]

end Directory

end Chomsky
