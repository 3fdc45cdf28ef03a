import Ardoise.Session

/-!
# The prompt

At the prompt every line is a program of its own, run on top of what the lines
before it have declared.  What a line prints goes to the output, and what is
wrong with it to the errors.  White space at the ends of a line does not matter:
a character is white space if it has the Unicode property `White_Space`.
-/

namespace Ardoise

namespace Text

def blankRanges : List (Nat × Nat) :=
  [(0x9, 0xd), (0x20, 0x20), (0x85, 0x85), (0xa0, 0xa0), (0x1680, 0x1680), (0x2000, 0x200a),
    (0x2028, 0x2029), (0x202f, 0x202f), (0x205f, 0x205f), (0x3000, 0x3000)]

def isBlank (c : Char) : Bool :=
  blankRanges.any fun (first, last) => first ≤ c.toNat && c.toNat ≤ last

def trim (text : String) : String :=
  let front := text.toList.dropWhile isBlank
  .ofList (front.reverse.dropWhile isBlank).reverse

end Text

structure Written where
  output : String
  errors : String

structure Prompt where
  world : World
  session : Session

namespace Prompt

def invitation : String := "> "

def farewell : String := "\nAu revoir !\n"

def unreadable : String := "Failed read line: stream did not contain valid UTF-8\n"

def start (limits : Limits) : Prompt :=
  let (session, world) := World.initial.newSession limits
  let (session, world) := world.reset session
  ⟨world, session⟩

def unlines (lines : List String) : String :=
  String.join (lines.map (· ++ "\n"))

/-- Answers one line; `none` is a line that is no text. -/
def answer (fuel : Nat) (prompt : Prompt) (line : Option String) : Option (Prompt × Written) :=
  match line with
  | none => some (prompt, ⟨"", unreadable⟩)
  | some line => do
    let source := Text.trim line
    let report ← prompt.world.clearLines.run fuel prompt.session source
    let errors :=
      match report.diagnostic with
      | some diagnostic => diagnostic.render source ++ "\n"
      | none => ""
    return (⟨report.world, report.session⟩, ⟨unlines report.world.lines.toList, errors⟩)

def dialogue (fuel : Nat) (prompt : Prompt) : List (Option String) → Option Written
  | [] => some ⟨invitation ++ farewell, ""⟩
  | line :: rest => do
    let (next, here) ← prompt.answer fuel line
    let after ← next.dialogue fuel rest
    return ⟨invitation ++ here.output ++ after.output, here.errors ++ after.errors⟩

end Prompt

end Ardoise
