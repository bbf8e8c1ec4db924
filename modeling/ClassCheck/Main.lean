import ClassCheck.CommandLine

/-!
# The program

Reads the file named on the command line, prints the verdict to the standard output and what
explains it to the error output.
-/

namespace ClassCheck

open CommandLine

/-- Why a file could not be read, by the number of the error, whichever sign it is given with. -/
def faultOfCode (e : IO.Error) (code : UInt32) : ReadFault :=
  match (min code (0 - code)).toNat with
  | 20 => .notDirectory
  | 21 => .isDirectory
  | 36 => .nameTooLong
  | _ => .other (toString e)

/-- Why a file could not be read. -/
def readFault : IO.Error → ReadFault
  | .noFileOrDirectory .. => .noSuchFile
  | .permissionDenied .. => .permissionDenied
  | .inappropriateType file code details => faultOfCode (.inappropriateType file code details) code
  | .invalidArgument file code details => faultOfCode (.invalidArgument file code details) code
  | e => .other (toString e)

/-- The bytes of a file, or why they could not be read. -/
def readFile (path : String) : IO (Except ReadFault ByteArray) := do
  try
    let bytes ← IO.FS.readBinFile path
    pure (.ok bytes)
  catch e => pure (.error (readFault e))

/-- Print a response and give its exit code. -/
def printResponse (r : Response) : IO UInt32 := do
  for line in r.errors do IO.eprintln line
  for line in r.output do IO.println line
  pure r.exit

/-- Answer the arguments. -/
def run (arguments : List String) : IO UInt32 := do
  printResponse (← respond readFile arguments)

end ClassCheck

/-- Check the file named by the arguments. -/
def main (arguments : List String) : IO UInt32 := ClassCheck.run arguments
