import Ardoise.Prompt

/-!
# The command

The command runs a file, lists the program in a file, or opens a prompt.  All
of it is decided here: what is read from the arguments, what is written to the
two outputs, and the exit code.
-/

namespace Ardoise

inductive Mode where
  | file (path : String)
  | listing (path : String)
  | prompt
  deriving DecidableEq

structure Command where
  limits : Limits
  mode : Mode
  deriving DecidableEq

inductive FileContent where
  | text (source : String)
  /-- The reason why the file cannot be read. -/
  | unreadable (reason : String)

structure Transcript where
  code : Nat
  written : Written

namespace FileContent

/-- A file holds a text only if its bytes are valid UTF-8. -/
def ofBytes (bytes : ByteArray) : FileContent :=
  match String.fromUTF8? bytes with
  | some source => text source
  | none => unreadable "stream did not contain valid UTF-8"

def missing : FileContent := unreadable "No such file or directory (os error 2)"

end FileContent

def decodeLine (line : List UInt8) : Option String :=
  String.fromUTF8? ⟨line.reverse.toArray⟩

/--
Cuts an input after each line break; `line` holds the bytes of the line so far,
last first.
-/
def inputLinesFrom (line : List UInt8) : List UInt8 → List (Option String)
  | [] => if line.isEmpty then [] else [decodeLine line]
  | byte :: rest =>
    if byte = 10 then decodeLine (byte :: line) :: inputLinesFrom [] rest
    else inputLinesFrom (byte :: line) rest

def inputLines (input : List UInt8) : List (Option String) :=
  inputLinesFrom [] input

namespace Command

def natural? (digits : String) : Option Nat :=
  let digits := digits.toList
  if !digits.isEmpty && digits.all Lexer.isDigit then some (Lexer.decimalValue digits) else none

def modeOf? : List String → Option Mode
  | ["file", path] => some (.file path)
  | ["ast", path] => some (.listing path)
  | ["repl"] => some .prompt
  | _ => none

def ofArguments? (limits : Limits) : List String → Option Command
  | "--max-depth" :: n :: rest => do
    ofArguments? { limits with callDepth := ← natural? n } rest
  | "--max-nesting" :: n :: rest => do
    ofArguments? { limits with nesting := ← natural? n } rest
  | arguments => do
    return ⟨limits, ← modeOf? arguments⟩

def failure (errors : String) : Transcript := ⟨1, ⟨"", errors ++ "\n"⟩⟩

def unreadableFile (path reason : String) : Transcript :=
  failure ("Erreur interne: Failed open source file " ++ path ++ ": " ++ reason)

def runFile (fuel : Nat) (limits : Limits) (path : String) : FileContent → Option Transcript
  | .unreadable reason => some (unreadableFile path reason)
  | .text source => do
    let report ← interpret fuel limits source
    let output := Prompt.unlines report.world.lines.toList
    match report.diagnostic with
    | some diagnostic => return ⟨1, ⟨output, diagnostic.render source ++ "\n"⟩⟩
    | none => return ⟨0, ⟨output, ""⟩⟩

def listFile (path : String) : FileContent → Transcript
  | .unreadable reason => unreadableFile path reason
  | .text source =>
    match Ardoise.listing source with
    | .error diagnostic => failure (diagnostic.render source)
    | .ok listing => ⟨0, ⟨listing ++ "\n", ""⟩⟩

def run (fuel : Nat) (command : Command) (files : String → FileContent) (input : List UInt8) :
    Option Transcript :=
  match command.mode with
  | .file path => runFile fuel command.limits path (files path)
  | .listing path => some (listFile path (files path))
  | .prompt => do
    let written ← (Prompt.start command.limits).dialogue fuel (inputLines input)
    return ⟨0, written⟩

end Command

end Ardoise
