import Chomsky.CommandLine.Run

/-!
# The command line

* `main` — answers the request that the arguments make, with files read from the system.
-/

namespace Chomsky

/-- The system's number for an error; it may be given with a minus sign. -/
def errorNumber (code : UInt32) : UInt32 := min code (-code)

/-- Why the system could not read a file. -/
def FileFault.ofSystem : IO.Error → FileFault
  | .noFileOrDirectory .. => notFound
  | .permissionDenied .. => permissionDenied
  | .inappropriateType _ code _ => if errorNumber code = 20 then notADirectory else isADirectory
  | .invalidArgument _ code explanation =>
    if errorNumber code = 36 then nameTooLong else system 22 "InvalidInput" explanation
  | e => system 5 "Uncategorized" (toString e)

/-- The bytes of a file, or of standard input. -/
def readBytes (file : Option Text) : IO (Except FileFault Text.Bytes) := do
  try
    let bytes ← match file with
      | some path => IO.FS.readBinFile path.string
      | none => do (← IO.getStdin).readBinToEnd
    return .ok bytes.data.toList
  catch e => return .error (.ofSystem e)

end Chomsky

open Chomsky in
/-- Answers the request that the arguments make. -/
def main (arguments : List String) : IO UInt32 := do
  let outcome ← (Request.ofArguments (arguments.map String.toList)).answer readBytes
  for line in outcome.errors do
    IO.eprintln line
  IO.print outcome.output
  return outcome.exitCode.toUInt32
