import Ardoise.Command

/-!
# The command line

Reads what the command needs and writes what it answers.
-/

namespace Ardoise.CommandLine

/-- Enough for any run that ends. -/
def fuel : Nat := 4611686018427387904

def usage : String := "[--max-depth N] [--max-nesting N] file PATH | ast PATH | repl"

def write (written : Written) : IO Unit := do
  let output ← IO.getStdout
  output.putStr written.output
  output.flush
  (← IO.getStderr).putStr written.errors

def readFile (path : String) : IO FileContent := do
  try
    return .ofBytes (← IO.FS.readBinFile path)
  catch
    | .noFileOrDirectory .. => return .missing
    | reason => return .unreadable (toString reason)

partial def readLine (input : IO.FS.Stream) (line : List UInt8) : IO (List UInt8) := do
  match (← input.read 1).toList with
  | [] => return line
  | byte :: _ => if byte = 10 then return byte :: line else readLine input (byte :: line)

partial def converse (input : IO.FS.Stream) (prompt : Prompt) : IO Unit := do
  write ⟨Prompt.invitation, ""⟩
  match inputLines (← readLine input []).reverse with
  | [] => write ⟨Prompt.farewell, ""⟩
  | line :: _ =>
    match prompt.answer fuel line with
    | none => return
    | some (next, written) =>
      write written
      converse input next

def answer (transcript : Option Transcript) : IO UInt32 := do
  match transcript with
  | none => return 1
  | some transcript =>
    write transcript.written
    return transcript.code.toUInt32

def run (command : Command) : IO UInt32 := do
  match command.mode with
  | .file path => answer (Command.runFile fuel command.limits path (← readFile path))
  | .listing path => answer (some (Command.listFile path (← readFile path)))
  | .prompt =>
    converse (← IO.getStdin) (.start command.limits)
    return 0

end Ardoise.CommandLine

def main (arguments : List String) : IO UInt32 := do
  match Ardoise.Command.ofArguments? {} arguments with
  | some command => Ardoise.CommandLine.run command
  | none =>
    IO.eprintln Ardoise.CommandLine.usage
    return 2
