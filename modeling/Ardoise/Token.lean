import Ardoise.Number.Text
import Ardoise.Span

/-!
# Tokens

A source text is read as symbols, words, strings and numbers.  Keywords are
words with a meaning of their own; each has one or more spellings, French and
English, and the letter case of a spelling does not matter.  The constructors
of `Keyword` carry the first French spelling.
-/

namespace Ardoise

inductive Symbol where
  | leftParen | rightParen | leftBrace | rightBrace | leftBracket | rightBracket
  | comma | dot | semicolon | minus | plus | star | slash
  | bang | bangEqual | equal | equalEqual | less | lessEqual | greater | greaterEqual
  deriving DecidableEq

namespace Symbol

def text : Symbol → String
  | leftParen => "("
  | rightParen => ")"
  | leftBrace => "\x7b"
  | rightBrace => "\x7d"
  | leftBracket => "["
  | rightBracket => "]"
  | comma => ","
  | dot => "."
  | semicolon => ";"
  | minus => "-"
  | plus => "+"
  | star => "*"
  | slash => "/"
  | bang => "!"
  | bangEqual => "!="
  | equal => "="
  | equalEqual => "=="
  | less => "<"
  | lessEqual => "<="
  | greater => ">"
  | greaterEqual => ">="

/-- The symbol a text starts with, the longer one where two fit, and the text after it. -/
def read? : List Char → Option (Symbol × List Char)
  | '(' :: rest => some (leftParen, rest)
  | ')' :: rest => some (rightParen, rest)
  | '\x7b' :: rest => some (leftBrace, rest)
  | '\x7d' :: rest => some (rightBrace, rest)
  | '[' :: rest => some (leftBracket, rest)
  | ']' :: rest => some (rightBracket, rest)
  | ',' :: rest => some (comma, rest)
  | '.' :: rest => some (dot, rest)
  | ';' :: rest => some (semicolon, rest)
  | '-' :: rest => some (minus, rest)
  | '+' :: rest => some (plus, rest)
  | '*' :: rest => some (star, rest)
  | '/' :: rest => some (slash, rest)
  | '!' :: '=' :: rest => some (bangEqual, rest)
  | '!' :: rest => some (bang, rest)
  | '=' :: '=' :: rest => some (equalEqual, rest)
  | '=' :: rest => some (equal, rest)
  | '<' :: '=' :: rest => some (lessEqual, rest)
  | '<' :: rest => some (less, rest)
  | '>' :: '=' :: rest => some (greaterEqual, rest)
  | '>' :: rest => some (greater, rest)
  | _ => none

theorem read?_append {text rest : List Char} {symbol : Symbol}
    (h : read? text = some (symbol, rest)) : symbol.text.toList ++ rest = text := by
  unfold read? at h
  split at h <;> cases h <;> rfl

end Symbol

inductive Keyword where
  | et | ou | si | alors | sinon | fin | tantque | pour | entre
  | fonction | retourner | afficher | var | vrai | faux | nul
  deriving DecidableEq

namespace Keyword

def all : List Keyword :=
  [et, ou, si, alors, sinon, fin, tantque, pour, entre,
    fonction, retourner, afficher, var, vrai, faux, nul]

def spellings : Keyword → List String
  | et => ["et", "and"]
  | ou => ["ou", "or"]
  | si => ["si", "if"]
  | alors => ["alors", "then", "faire", "do"]
  | sinon => ["sinon", "else"]
  | fin => ["fin", "end"]
  | tantque => ["tantque", "while"]
  | pour => ["pour", "for"]
  | entre => ["entre", "between", "from"]
  | fonction => ["fonction", "function"]
  | retourner => ["retourner", "return"]
  | afficher => ["afficher", "print"]
  | var => ["var"]
  | vrai => ["vrai", "true"]
  | faux => ["faux", "false"]
  | nul => ["nul", "null"]

def ofWord? (word : String) : Option Keyword :=
  all.find? fun keyword => keyword.spellings.contains word.toLower

theorem mem_all (keyword : Keyword) : keyword ∈ all := by
  cases keyword <;> simp [all]

end Keyword

inductive Kind where
  | symbol (symbol : Symbol)
  | keyword (keyword : Keyword)
  | identifier (name : String)
  | text (content : String)
  | number (value : Float)
  | endOfInput
  deriving DecidableEq

/-- One way to write a token of a kind. -/
def Kind.written : Kind → String
  | symbol sign => sign.text
  | keyword word => word.spellings.headD ""
  | identifier name => name
  | text content => "\"" ++ content ++ "\""
  | number value => Number.Format.printed.text value
  | endOfInput => ""

structure Token where
  kind : Kind
  lexeme : String
  span : Span
  deriving DecidableEq

namespace Token

def endAt (span : Span) : Token := ⟨.endOfInput, "", span⟩

end Token

end Ardoise
