import Ardoise.Parser.Basic

/-!
# Parsing expressions

From loosest to tightest: assignment, which associates to the right and takes
only a name on its left; the six levels of binary operators, which associate to
the left; prefix operators; and calls and indexing, which follow what they
apply to.  Every level of the tree counts against the nesting limit, also the
successive operators of a chain, since each encloses all that stands before it.
-/

namespace Ardoise

inductive Level where
  | disjunction | conjunction | equality | comparison | sum | product
  deriving DecidableEq

inductive Operator where
  | binary
  | logical
  deriving DecidableEq

namespace Level

def all : List Level := [disjunction, conjunction, equality, comparison, sum, product]

/-- The levels that can stand in a bound of a counting loop without parentheses. -/
def arithmetic : List Level := [sum, product]

def operator? : Level → Kind → Option Operator
  | disjunction, .keyword .ou => some .logical
  | conjunction, .keyword .et => some .logical
  | equality, .symbol .equalEqual => some .binary
  | equality, .symbol .bangEqual => some .binary
  | comparison, .symbol .greater => some .binary
  | comparison, .symbol .greaterEqual => some .binary
  | comparison, .symbol .less => some .binary
  | comparison, .symbol .lessEqual => some .binary
  | sum, .symbol .minus => some .binary
  | sum, .symbol .plus => some .binary
  | product, .symbol .slash => some .binary
  | product, .symbol .star => some .binary
  | _, _ => none

theorem operator?_endOfInput (precedence : Level) : precedence.operator? .endOfInput = none := by
  cases precedence <;> rfl

end Level

namespace Operator

def join (op : Operator) (token : Token) (left right : Expr) : Expr :=
  let span := left.span.upTo right.span
  match op with
  | binary => .binary span token.kind left right
  | logical => .logical span token.kind token.lexeme left right

end Operator

def Kind.isSign : Kind → Bool
  | .symbol .minus | .symbol .bang => true
  | _ => false

namespace Parser

def literal? : Kind → Option Literal
  | .keyword .vrai => some (.boolean true)
  | .keyword .faux => some (.boolean false)
  | .keyword .nul => some .null
  | .number value => some (.number value)
  | .text content => some (.text content)
  | _ => none

def afterElement (first : Expr) (more : Parser (List Expr × Token)) :
    Parser (List Expr × Token) := do
  if (← peek).kind = .symbol .rightBracket then
    return ([first], ← advance)
  else
    let _ ← expect (.symbol .comma) .arrayComma
    let others ← more
    return (first :: others.1, others.2)

/--
The elements of an array and the bracket that closes it; a comma may follow the
last element.
-/
def elements (expression : Parser Expr) : Nat → Parser (List Expr × Token)
  | 0 => exhausted
  | allowance + 1 => do
    if (← peek).kind = .symbol .rightBracket then
      return ([], ← advance)
    else
      afterElement (← expression) (elements expression allowance)

def array (expression : Parser Expr) (allowance : Nat) : Parser Expr := do
  let opening ← advance
  let (items, close) ← elements expression allowance
  return .array (opening.span.upTo close.span) items

def parenthesised (expression : Parser Expr) : Parser Expr := do
  let opening ← advance
  let inner ← expression
  let close ← expect (.symbol .rightParen) .closingParenthesis
  return inner.widen (opening.span.upTo close.span)

def primary (expression : Parser Expr) (allowance : Nat) : Parser Expr := do
  let token ← peek
  match literal? token.kind, token.kind with
  | some value, _ =>
    let token ← advance
    return .literal token.span value
  | none, .identifier name =>
    let token ← advance
    return .lookup token.span ⟨name, token.span⟩
  | none, .symbol .leftParen => parenthesised expression
  | none, .symbol .leftBracket => array expression allowance
  | none, _ => refuse .expression

def arguments (expression : Parser Expr) (allowance : Nat) (callee : Expr) : Parser Expr := do
  let opening ← advance
  let values ← separatedUntil (.symbol .rightParen) expression allowance
  let close ← expect (.symbol .rightParen) .argumentsEnd
  return .call callee.span (opening.span.upTo close.span) callee values

def subscript (expression : Parser Expr) (source : Expr) : Parser Expr := do
  let _ ← advance
  let position ← expression
  let close ← expect (.symbol .rightBracket) .indexEnd
  return .index (source.span.upTo close.span) source position

def suffixes (expression : Parser Expr) (allowance : Nat) : Nat → Expr → Parser Expr
  | 0, _ => exhausted
  | turns + 1, left => do
    match (← peek).kind with
    | .symbol .leftParen =>
      deepen
      suffixes expression allowance turns (← arguments expression allowance left)
    | .symbol .leftBracket =>
      deepen
      suffixes expression allowance turns (← subscript expression left)
    | _ => return left

def postfixed (expression : Parser Expr) (allowance : Nat) : Parser Expr :=
  balanced do suffixes expression allowance allowance (← primary expression allowance)

def prefixed (operand : Parser Expr) : Nat → Parser Expr
  | 0 => exhausted
  | allowance + 1 => do
    if (← peek).kind.isSign then
      let token ← advance
      let right ← nested (prefixed operand allowance)
      return .unary (token.span.upTo right.span) token.kind right
    else
      operand

def operations (precedence : Level) (operand : Parser Expr) : Nat → Expr → Parser Expr
  | 0, _ => exhausted
  | allowance + 1, left => do
    match precedence.operator? (← peek).kind with
    | some op =>
      deepen
      let token ← advance
      let right ← operand
      operations precedence operand allowance (op.join token left right)
    | none => return left

def operators (operand : Parser Expr) (allowance : Nat) : List Level → Parser Expr
  | [] => operand
  | precedence :: tighter =>
    balanced do
      operations precedence (operators operand allowance tighter) allowance
        (← operators operand allowance tighter)

def assignment (operand : Parser Expr) : Nat → Parser Expr
  | 0 => exhausted
  | allowance + 1 => do
    let left ← operand
    if (← peek).kind = .symbol .equal then
      let equals ← advance
      let value ← nested (assignment operand allowance)
      match left with
      | .lookup _ target => return .assign (target.span.upTo value.span) target value
      | _ => refuseAt equals .assignmentTarget
    else
      return left

def operand (expression : Parser Expr) (allowance : Nat) : Parser Expr :=
  prefixed (postfixed expression allowance) allowance

def expression : Nat → Parser Expr
  | 0 => exhausted
  | allowance + 1 =>
    nested (assignment
      (operators (operand (expression allowance) (allowance + 1)) (allowance + 1) Level.all)
      (allowance + 1))

/-- A bound of a counting loop, in which the word between the bounds is no operator. -/
def bound (allowance : Nat) : Parser Expr :=
  operators (operand (expression allowance) (allowance + 1)) (allowance + 1) Level.arithmetic

end Parser

end Ardoise
