import Monkey.Transcript

/-!
# Command Line

The program as it is started from a shell.

With a file it runs the file as a script. Without one it answers the lines
that it reads, as they arrive. All that happens in between is decided
elsewhere; here bytes are read and text is written.
-/

namespace Monkey

namespace CommandLine

/-- How deeply calls may nest: deeper than the stack can hold. -/
def limit : Nat := 1000000000

/-- What is said if calls nest even deeper. -/
def tooDeep : String := "calls nest too deeply\n"

/-- Reads up to and including the next line end. Nothing is left if there is
    no byte. -/
partial def readLine (input : IO.FS.Stream) (line : ByteArray) : IO ByteArray := do
  let bytes ← input.read 1
  if bytes.isEmpty then return line
  let line := line ++ bytes
  if bytes.data.contains 0x0a then return line else readLine input line

/-- Answers lines as they arrive. -/
partial def serve (input output errors : IO.FS.Stream) (scope : ScopeId) (store : Store) :
    IO UInt32 := do
  if ← input.isTty then
    output.putStr ">> "
    output.flush
  let line ← readLine input .empty
  if line.isEmpty then return 0
  match Dialogue.reply limit scope line store with
  | none =>
    errors.putStr tooDeep
    return 1
  | some (.ends notice) =>
    errors.putStr notice
    return 0
  | some (.goesOn text after) =>
    output.putStr text
    output.flush
    serve input output errors scope after

/-- Writes a transcript to the streams it is made for. -/
def write (output errors : IO.FS.Stream) (transcript : Option Transcript) : IO UInt32 := do
  match transcript with
  | none =>
    errors.putStr tooDeep
    return 1
  | some t =>
    output.putStr t.output
    output.flush
    errors.putStr t.errors
    return t.exitCode

/-- Runs a file as a script. -/
def runFile (output errors : IO.FS.Stream) (path : String) : IO UInt32 := do
  match ← (IO.FS.readBinFile path).toBaseIO with
  | .ok contents => write output errors (Transcript.ofScript limit path contents)
  | .error (.noFileOrDirectory ..) => write output errors (some (Transcript.missing path))
  | .error cause => write output errors (some (Transcript.unreadable path (toString cause)))

end CommandLine

end Monkey

/-- Runs a script, or answers lines if there is none. -/
def main (args : List String) : IO UInt32 := do
  let output ← IO.getStdout
  let errors ← IO.getStderr
  match args with
  | path :: _ => Monkey.CommandLine.runFile output errors path
  | [] =>
    output.putStr Monkey.Dialogue.banner
    let (scope, store) := Monkey.Store.withRoot
    Monkey.CommandLine.serve (← IO.getStdin) output errors scope store
