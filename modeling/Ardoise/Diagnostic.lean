import Ardoise.Fault

/-!
# Diagnostics

A diagnostic is what a user is shown when a text cannot be read or run.  It is
drawn either as a block for a terminal, with carets under the offending
characters, or as a marker for an editor.  Both count columns in characters and
resolve spans against the text, whatever offsets a span holds: an offset past
the end counts as the end, and one inside a character as the start of that
character.
-/

namespace Ardoise

inductive Diagnostic where
  | lexical (fault : Located LexicalFault)
  | grammar (fault : Located GrammarFault)
  | runtime (fault : Located RuntimeFault)
  deriving DecidableEq

/-- The longest prefix that takes at most `bytes` bytes, and the characters after it. -/
def splitBytes : Nat → List Char → List Char × List Char
  | _, [] => ([], [])
  | bytes, c :: rest =>
    if c.utf8Size ≤ bytes then
      let (taken, left) := splitBytes (bytes - c.utf8Size) rest
      (c :: taken, left)
    else
      ([], c :: rest)

def byteSize (cs : List Char) : Nat :=
  cs.foldl (fun size c => size + c.utf8Size) 0

/-- A span resolved against a text. -/
structure Excerpt where
  /-- The characters of the first line that stand before the span. -/
  before : List Char
  marked : List Char
  /-- The characters from the start of the span to the end of its first line. -/
  onward : List Char

namespace Excerpt

def locate (source : List Char) (span : Span) : Excerpt :=
  let (before, after) := splitBytes span.start source
  { before := (before.reverse.takeWhile (· ≠ '\n')).reverse
    marked := (splitBytes (span.stop - byteSize before) after).1
    onward := after.takeWhile (· ≠ '\n') }

def column (excerpt : Excerpt) : Nat := excerpt.before.length

def line (excerpt : Excerpt) : List Char :=
  ((excerpt.before ++ excerpt.onward).reverse.dropWhile (· = '\r')).reverse

def underline (excerpt : Excerpt) : Nat :=
  (excerpt.marked.takeWhile (· ≠ '\n')).length

end Excerpt

/-- What an editor underlines; lines and columns count from one. -/
structure Marker where
  startLine : Nat
  startColumn : Nat
  endLine : Nat
  endColumn : Nat
  message : String
  deriving DecidableEq

namespace Diagnostic

def title : Diagnostic → String
  | lexical _ | grammar _ => "Erreur de syntaxe"
  | runtime _ => "Erreur à l'exécution"

def message : Diagnostic → String
  | lexical fault => fault.fault.message
  | grammar fault => fault.fault.message
  | runtime fault => fault.fault.message

def span : Diagnostic → Span
  | lexical fault => fault.span
  | grammar fault => fault.span
  | runtime fault => fault.span

def summary (diagnostic : Diagnostic) : String :=
  "ligne " ++ toString diagnostic.span.line ++ ": " ++ diagnostic.message

/--
The title with the place, the source line, carets under the marked characters,
the message.
-/
def render (diagnostic : Diagnostic) (source : String) : String :=
  let excerpt := Excerpt.locate source.toList diagnostic.span
  let padding := String.ofList (List.replicate excerpt.column ' ')
  let carets := String.ofList (List.replicate (max excerpt.underline 1) '^')
  diagnostic.title ++ ": ligne " ++ toString diagnostic.span.line ++
    ", colonne " ++ toString excerpt.column ++ "\n\n" ++
    String.ofList excerpt.line ++ "\n" ++
    padding ++ carets ++ "\n" ++
    padding ++ diagnostic.message

def marker (diagnostic : Diagnostic) (source : String) : Marker :=
  let span := diagnostic.span
  let excerpt := Excerpt.locate source.toList span
  let lastLine := excerpt.marked.reverse.takeWhile (· ≠ '\n')
  { startLine := span.line
    startColumn := excerpt.column + 1
    endLine := span.line + excerpt.marked.count '\n'
    endColumn :=
      (if '\n' ∈ excerpt.marked then 0 else excerpt.column) + lastLine.length + 1
    message := diagnostic.message }

end Diagnostic

end Ardoise
