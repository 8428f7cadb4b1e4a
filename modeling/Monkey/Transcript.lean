import Monkey.Session
import Monkey.Text.Blank
import Monkey.Value.Printer

/-!
# Transcripts

What a user sees of a run: two streams of text and an exit code.

There are two ways to run texts. A script is a single text. Its last value is
shown in the plain form, and an error goes to standard error and turns into
an exit code. A dialogue is a sequence of lines, and each of them is answered
with the code form of its value or with what is wrong with it; errors are
answers like any other and go to standard output.

A line is kept together with its line end, so positions in messages count it.
Only to decide what kind of line it is are the blanks at its ends left out. A
line that is empty then has no answer, and two words end the dialogue. Bytes
that are not text end it too.

## Main definitions

* `Transcript`: What was written to the two streams, and the exit code.
* `Transcript.ofScript`: The contents of a file run as a script.
* `Dialogue.reply`: What a line of a dialogue leads to.
* `Transcript.ofInput`: The lines of an input answered one by one.
-/

namespace Monkey

/-- Parse errors as they are listed for a user, one line each. -/
def ParseError.listing (errors : List ParseError) : String :=
  "Parser errors:" ++ String.join (errors.map fun e => "\n\t" ++ e.message)

/-- What a run leaves behind for its user. -/
structure Transcript where
  /-- Zero unless something went wrong. -/
  exitCode : UInt32
  /-- The text on standard output. -/
  output : String
  /-- The text on standard error. -/
  errors : String
  deriving DecidableEq, Repr

namespace Transcript

/-- Why bytes are refused that are not UTF-8. -/
def notText : String :=
  "stream did not contain valid UTF-8"

/-- Why a file is refused that does not exist. -/
def noSuchFile : String :=
  "No such file or directory (os error 2)"

/-- A file that could not be read as a script. -/
def unreadable (path reason : String) : Transcript :=
  ⟨1, "", "Failed to read \x27" ++ path ++ "\x27: " ++ reason ++ "\n"⟩

/-- A script that does not exist. -/
def missing (path : String) : Transcript :=
  unreadable path noSuchFile

/-- A script that ended with the given report. -/
def ofReport (report : Report) : Transcript :=
  match report.result with
  | none => ⟨0, report.output, ""⟩
  | some v =>
    if v.isError then ⟨1, report.output, v.text ++ "\n"⟩
    else ⟨0, report.output ++ v.text ++ "\n", ""⟩

/-- A text run as a script. -/
def ofSource (limit : Nat) (source : String) : Option Transcript := do
  let (scope, store) := Store.withRoot
  match ← store.interpret limit scope source with
  | (.rejected errors, _) => return ⟨1, "", ParseError.listing errors ++ "\n"⟩
  | (.ran report, _) => return ofReport report

/-- The contents of a file run as a script. -/
def ofScript (limit : Nat) (path : String) (contents : ByteArray) : Option Transcript :=
  match String.fromUTF8? contents with
  | none => some (unreadable path notText)
  | some source => ofSource limit source

end Transcript

namespace Dialogue

/-- What is said before the first line. -/
def banner : String :=
  "monke v0.1.0\n"

/-- What is said about a line that is not text. -/
def notTextNotice : String :=
  "Error: Io(Error \x7b kind: InvalidData, message: \"" ++ Transcript.notText ++ "\" \x7d)\n"

/-- What kind of line a line is. -/
inductive LineKind where
  /-- It ends the dialogue. -/
  | leave
  /-- There is nothing to answer. -/
  | blank
  /-- It is source text. -/
  | source
  deriving DecidableEq, Repr

/-- The kind of a line, which does not depend on the blanks at its ends. -/
def lineKind (line : String) : LineKind :=
  let word := String.ofList (Text.trim line.toList)
  if word = "exit" ∨ word = "quit" then .leave
  else if word = "" then .blank
  else .source

/-- What is said in answer to a source text. -/
def answer : Response → String
  | .rejected errors => ParseError.listing errors ++ "\n"
  | .ran report =>
    match report.result with
    | none => report.output
    | some v => report.output ++ v.code ++ "\n"

/-- What a line leads to. -/
inductive Reply where
  /-- The dialogue ends, with this on standard error. -/
  | ends (errors : String)
  /-- It goes on, with this on standard output. -/
  | goesOn (output : String) (store : Store)

/-- What a line leads to. -/
def reply (limit : Nat) (scope : ScopeId) (bytes : ByteArray) (store : Store) : Option Reply :=
  match String.fromUTF8? bytes with
  | none => some (.ends notTextNotice)
  | some line =>
    match lineKind line with
    | .leave => some (.ends "")
    | .blank => some (.goesOn "" store)
    | .source => do
      let (response, after) ← store.interpret limit scope line
      return .goesOn (answer response) after

/-- The replies to lines up to the one that ends the dialogue. -/
def replies (limit : Nat) (scope : ScopeId) (store : Store) :
    List ByteArray → Option Transcript
  | [] => some ⟨0, "", ""⟩
  | line :: lines => do
    match ← reply limit scope line store with
    | .ends errors => return ⟨0, "", errors⟩
    | .goesOn output after =>
      let rest ← replies limit scope after lines
      return { rest with output := output ++ rest.output }

end Dialogue

namespace Text

/-- Puts a byte in front of lines: on the first of them, unless the byte ends
    a line of its own. -/
def consByte (b : UInt8) : List (List UInt8) → List (List UInt8)
  | [] => [[b]]
  | l :: ls => if b = 0x0a then [b] :: l :: ls else (b :: l) :: ls

/-- The lines that bytes make up, each with its line end. The last one may
    lack it. -/
def byteLines (bytes : List UInt8) : List (List UInt8) :=
  bytes.foldr consByte []

end Text

/-- The lines of an input answered one by one. -/
def Transcript.ofInput (limit : Nat) (input : ByteArray) : Option Transcript := do
  let (scope, store) := Store.withRoot
  let lines := (Text.byteLines input.data.toList).map fun line => ByteArray.mk line.toArray
  let rest ← Dialogue.replies limit scope store lines
  return { rest with output := Dialogue.banner ++ rest.output }

end Monkey
