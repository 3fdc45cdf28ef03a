import Ardoise.Fault
import Ardoise.Tree

/-!
# Parsers

A parser takes tokens off the front of a list and counts how deep the program
it builds is nested.  It gives a value, or the fault at which it stops, or
nothing at all when its allowance of steps is used up.  Allowances are what
makes the rules of the grammar total; one that exceeds the number of tokens is
never used up.
-/

namespace Ardoise

structure Cursor where
  tokens : List Token
  /-- Levels of nesting around the next token. -/
  nesting : Nat

structure Setting where
  /-- The most levels of nesting allowed. -/
  limit : Nat
  /-- Stands behind the last token, however often it is read. -/
  final : Token

inductive Reply (α : Type) where
  | parsed (value : α) (cursor : Cursor)
  | refused (fault : Located GrammarFault) (cursor : Cursor)
  | exhausted

def Parser (α : Type) : Type := Setting → Cursor → Reply α

namespace Parser

variable {α β : Type}

@[always_inline, inline]
protected def pure (a : α) : Parser α := fun _ cursor => .parsed a cursor

@[always_inline, inline]
protected def bind (p : Parser α) (f : α → Parser β) : Parser β := fun setting cursor =>
  match p setting cursor with
  | .parsed a next => f a setting next
  | .refused fault stopped => .refused fault stopped
  | .exhausted => .exhausted

@[always_inline]
instance : Monad Parser where
  pure := Parser.pure
  bind := Parser.bind

def exhausted : Parser α := fun _ _ => .exhausted

def peek : Parser Token := fun setting cursor =>
  .parsed (cursor.tokens.headD setting.final) cursor

def advance : Parser Token := fun setting cursor =>
  match cursor.tokens with
  | [] => .parsed setting.final cursor
  | token :: rest => .parsed token { cursor with tokens := rest }

def refuseAt (token : Token) (expected : Expected) : Parser α := fun _ cursor =>
  .refused ⟨token.span, .ofLexeme token.lexeme expected⟩ cursor

def refuse (expected : Expected) : Parser α := do
  refuseAt (← peek) expected

def deepen : Parser Unit := fun setting cursor =>
  let deeper := { cursor with nesting := cursor.nesting + 1 }
  if setting.limit < deeper.nesting then refuse (.tooDeep setting.limit) setting deeper
  else .parsed () deeper

def nested (p : Parser α) : Parser α := do
  deepen
  fun setting cursor =>
    match p setting cursor with
    | .parsed a next => .parsed a { next with nesting := next.nesting - 1 }
    | .refused fault stopped => .refused fault { stopped with nesting := stopped.nesting - 1 }
    | .exhausted => .exhausted

/-- Gives back, after a parser that succeeds, the levels it has gone deeper. -/
def balanced (p : Parser α) : Parser α := fun setting cursor =>
  match p setting cursor with
  | .parsed a next => .parsed a { next with nesting := cursor.nesting }
  | .refused fault stopped => .refused fault stopped
  | .exhausted => .exhausted

def accept (kind : Kind) : Parser Bool := do
  if (← peek).kind = kind then
    let _ ← advance
    return true
  else
    return false

def expect (kind : Kind) (expected : Expected) : Parser Token := do
  if (← peek).kind = kind then advance else refuse expected

def expectName (expected : Expected) : Parser Name := do
  match (← peek).kind with
  | .identifier name =>
    let token ← advance
    return ⟨name, token.span⟩
  | _ => refuse expected

def separated (item : Parser α) : Nat → Parser (List α)
  | 0 => exhausted
  | allowance + 1 => do
    let first ← item
    if ← accept (.symbol .comma) then
      return first :: (← separated item allowance)
    else
      return [first]

def separatedUntil (close : Kind) (item : Parser α) (allowance : Nat) : Parser (List α) := do
  if (← peek).kind = close then return [] else separated item allowance

end Parser

end Ardoise
