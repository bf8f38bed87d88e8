import MicroC.CommandLine.Command
import MicroC.CommandLine.Disk

/-!
# The program

The command on the files and the standard streams of its process.
-/

namespace MicroC

/-- All bytes that are left on a stream. -/
partial def readAll (stream : IO.FS.Stream) (bytes : ByteArray := .empty) : IO ByteArray := do
  let chunk ← stream.read 65536
  if chunk.isEmpty then return bytes else readAll stream (bytes ++ chunk)

/-- The number of an error of the operating system. -/
def errorNumber? : IO.Error → Option UInt32
  | .noFileOrDirectory _ code _ | .noSuchThing _ code _ | .permissionDenied _ code _
  | .inappropriateType _ code _ | .resourceExhausted _ code _ | .invalidArgument _ code _ => some code
  | _ => none

/-- The text of an error of the operating system. Some calls report its number negated. -/
def ioErrorText (e : IO.Error) : String :=
  match (errorNumber? e).bind fun code => DiskError.ofNumber? (min code (0 - code)).toNat with
  | some d => d.message
  | none => e.toString

/-- The result of an action, or the text of its error. -/
def attempt {α : Type} (act : IO α) : IO (Except String α) := do
  match ← act.toBaseIO with
  | .ok a => return .ok a
  | .error e => return .error (ioErrorText e)

/-- Prints a text at once, so that it comes before what is written to the same place by name. -/
def printNow (stream : IO.FS.Stream) (text : String) : IO Unit := do
  stream.putStr text
  stream.flush

/-- Writes a file, with the errors that appear only when the last of it leaves the buffer. -/
def writeThrough (path text : String) : IO Unit := do
  let file ← IO.FS.Handle.mk path .write
  file.putStr text
  file.flush

/-- The files and the standard streams of the process. -/
def processSystem : System IO where
  readFile path := attempt (IO.FS.readBinFile path)
  writeFile path text := attempt (writeThrough path text)
  readInput := do readAll (← IO.getStdin)
  print text := do printNow (← IO.getStdout) text
  printError text := do printNow (← IO.getStderr) text

end MicroC

/-- Compiles, and runs, what the arguments name. -/
def main (args : List String) : IO UInt32 := do
  return (← MicroC.command MicroC.processSystem args).toUInt32
