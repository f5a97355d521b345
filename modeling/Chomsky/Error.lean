import Chomsky.Text.Quoted

/-!
# Errors

What can go wrong, as causes, and how each cause is worded.

* `Malformation` — why a line or a rule is refused.
* `ConfigFault`, `JsonFault`, `FileFault` — what is wrong with a configuration, a JSON text, a file.
* `Purpose` — what a new nonterminal name is wanted for.
* `GrammarError` — all of these.
* `GrammarError.message` — the wording for a reader; `GrammarError.report` — the cause and its
  data spelled out, as the command line shows it.
-/

namespace Chomsky

/-- Why a rule is refused. -/
inductive Malformation where
  /-- The line has no head followed by an arrow. -/
  | noArrow (line : Text)
  /-- What stands before the arrow is not one upper-case letter. -/
  | badHead (head : Text)
  /-- The head given for a rule is not an upper-case letter. -/
  | badHeadName (head : Char)
  | emptyBody
  /-- The body is empty in a rule for `head`. -/
  | emptyBodyFor (head : Char)
  | notSymbol (c : Char)
  /-- The null marker stands in a text beside other characters. -/
  | mixedMarker (text : Text)
  | mixedNull
  /-- The null symbol is one of several symbols in a rule for `head`. -/
  | nullInside (head : Char)
  deriving DecidableEq, Repr

/-- What is wrong with a configuration. -/
inductive ConfigFault where
  | badStart (start : Char)
  | badMarker (marker : Char)
  deriving DecidableEq, Repr

/-- What is wrong with a JSON text. -/
inductive JsonFault where
  /-- The text ends where more is needed. -/
  | truncated
  /-- The text is JSON so far, but not what is asked for. -/
  | mistyped
  /-- The text is not JSON. -/
  | malformed
  deriving DecidableEq, Repr

/-- Why a file cannot be read. -/
inductive FileFault where
  /-- The operating system refuses. -/
  | system (code : Nat) (kind explanation : String)
  /-- The bytes are not UTF-8. -/
  | notUtf8
  deriving DecidableEq, Repr

namespace FileFault

def notFound : FileFault := system 2 "NotFound" "No such file or directory"

def permissionDenied : FileFault := system 13 "PermissionDenied" "Permission denied"

def notADirectory : FileFault := system 20 "NotADirectory" "Not a directory"

def isADirectory : FileFault := system 21 "IsADirectory" "Is a directory"

def nameTooLong : FileFault := system 36 "InvalidFilename" "File name too long"

end FileFault

/-- What a new nonterminal name is wanted for. -/
inductive Purpose where
  /-- To stand for a terminal. -/
  | terminal (letter : Char)
  /-- To link the parts of a long rule for `head`. -/
  | link (head : Char)
  | named (text : String)
  deriving DecidableEq, Repr

inductive GrammarError where
  | file (fault : FileFault)
  | malformedRule (line : Nat) (reason : Malformation)
  /-- No nonterminal name is left. -/
  | exhausted (purpose : Purpose)
  | unknownPass (name : String)
  | config (fault : ConfigFault)
  | json (fault : JsonFault)
  deriving DecidableEq, Repr

/-! ## Wording -/

def Malformation.message : Malformation → String
  | noArrow line => s!"expected 'X -> ...', got \"{line.string}\""
  | badHead head => s!"left-hand side \"{head.string}\" is not a single nonterminal"
  | badHeadName head => s!"left-hand side '{head}' is not a nonterminal"
  | emptyBody => "empty right-hand side"
  | emptyBodyFor head => s!"empty right-hand side for {head}"
  | notSymbol c => s!"'{c}' is neither a letter nor the null marker"
  | mixedMarker text => s!"null marker mixed with other symbols in \"{text.string}\""
  | mixedNull => "null marker mixed with other symbols"
  | nullInside head => s!"null marker inside a rule for {head}"

def ConfigFault.message : ConfigFault → String
  | badStart c => s!"start symbol '{c}' must be an uppercase letter"
  | badMarker c => s!"null marker '{c}' must not be a letter, whitespace or '|'"

def JsonFault.message : JsonFault → String
  | truncated => "the text ends too early"
  | mistyped => "a value is not what is expected"
  | malformed => "the text is not JSON"

def FileFault.message : FileFault → String
  | system code _ explanation => s!"{explanation} (os error {code})"
  | notUtf8 => "stream did not contain valid UTF-8"

def Purpose.message : Purpose → String
  | terminal letter => s!"terminal '{letter}'"
  | link head => s!"a rule for {head}"
  | named text => text

def GrammarError.message : GrammarError → String
  | file fault => s!"IO error: {fault.message}"
  | malformedRule line reason => s!"Malformed rule on line {line}: {reason.message}"
  | exhausted purpose => s!"No unused nonterminal name left for {purpose.message}"
  | unknownPass name => s!"Unknown pass: {name}"
  | config fault => s!"Invalid configuration: {fault.message}"
  | json fault => s!"JSON error: {fault.message}"

def FileFault.report : FileFault → String
  | system code kind explanation =>
    s!"Os \x7b code: {code}, kind: {kind}, message: {Text.quotedString explanation} \x7d"
  | notUtf8 =>
    s!"Error \x7b kind: InvalidData, message: {Text.quotedString notUtf8.message} \x7d"

/-- The name of the cause with its data. -/
def GrammarError.report : GrammarError → String
  | file fault => s!"Io({fault.report})"
  | malformedRule line reason =>
    s!"MalformedRule \x7b line: {line}, reason: {Text.quotedString reason.message} \x7d"
  | exhausted purpose => s!"SymbolExhaustion({Text.quotedString purpose.message})"
  | unknownPass name => s!"UnknownPass({Text.quotedString name})"
  | config fault => s!"Config({Text.quotedString fault.message})"
  | json _ => "Json"

end Chomsky
