import Ardoise.Parser.Expression

/-!
# Parsing statements

Statements follow each other without separators: an expression ends where the
next token cannot continue it.
-/

namespace Ardoise

namespace Parser

def statements (statement : Parser Stmt) (closers : List Kind) : Nat → Parser (List Stmt)
  | 0 => exhausted
  | allowance + 1 => do
    let token ← peek
    if token.kind ∈ closers ∨ token.kind = .endOfInput then
      return []
    else
      let first ← statement
      return first :: (← statements statement closers allowance)

def block (body : Parser (List Stmt)) (closers : List Kind) (expected : Expected) :
    Parser (Block Stmt × Token) := do
  let first ← peek
  let body ← nested body
  if (← peek).kind ∈ closers then
    let close ← advance
    return (⟨first.span.upTo close.span, body⟩, close)
  else
    refuse expected

def functionRule (parameters : Parser (List Name)) (body : Parser (Block Stmt × Token)) :
    Parser Stmt := do
  let keyword ← advance
  let name ← expectName .functionName
  let _ ← expect (.symbol .leftParen) .parametersStart
  let parameters ← parameters
  let _ ← expect (.symbol .rightParen) .parametersEnd
  let (body, close) ← body
  return .function (keyword.span.upTo close.span) name parameters body.body

def giveRule (inFunction : Bool) (expression : Parser Expr) : Parser Stmt := do
  if inFunction then
    let keyword ← advance
    let value ← expression
    return .give (keyword.span.upTo value.span) value
  else
    refuse .returnInFunction

def declareRule (expression : Parser Expr) : Parser Stmt := do
  let keyword ← advance
  let name ← expectName .variableName
  let _ ← expect (.symbol .equal) .declarationEqual
  let value ← expression
  return .declare (keyword.span.upTo value.span) name value

/-- Where `body` ends at the alternative, and not at the end, `otherwise` reads on. -/
def branchRule (expression : Parser Expr) (body otherwise : Parser (Block Stmt × Token)) :
    Parser Stmt := do
  let keyword ← advance
  let condition ← expression
  let _ ← expect (.keyword .alors) .conditionThen
  let (body, delimiter) ← body
  if delimiter.kind = .keyword .sinon then
    let (other, close) ← otherwise
    return .branch (keyword.span.upTo close.span) condition body (some other)
  else
    return .branch (keyword.span.upTo delimiter.span) condition body none

def whileRule (expression : Parser Expr) (body : Parser (Block Stmt × Token)) : Parser Stmt := do
  let keyword ← advance
  let condition ← expression
  let _ ← expect (.keyword .alors) .loopDo
  let (body, close) ← body
  return .whileLoop (keyword.span.upTo close.span) condition body

def countRule (bound : Parser Expr) (body : Parser (Block Stmt × Token)) : Parser Stmt := do
  let keyword ← advance
  let counter ← expectName .loopVariable
  let _ ← expect (.keyword .entre) .loopFrom
  let first ← bound
  let _ ← expect (.keyword .et) .loopAnd
  let last ← bound
  let _ ← accept (.keyword .alors)
  let (body, close) ← body
  return .countLoop (keyword.span.upTo close.span) counter first last body

def printRule (expression : Parser Expr) : Parser Stmt := do
  let keyword ← advance
  let value ← expression
  return .print (keyword.span.upTo value.span) value

def blockRule (body : Parser (Block Stmt × Token)) : Parser Stmt := do
  let opening ← advance
  let (body, close) ← body
  return .block ⟨opening.span.upTo close.span, body.body⟩

def statement : Nat → Bool → Parser Stmt
  | 0, _ => exhausted
  | allowance + 1, inFunction => do
    let expression := expression (allowance + 1)
    let bound := bound (allowance + 1)
    let parameters :=
      separatedUntil (.symbol .rightParen) (expectName .parameterName) (allowance + 1)
    let body := fun inFunction closers =>
      block (statements (statement allowance inFunction) closers (allowance + 1)) closers
    match (← peek).kind with
    | .keyword .fonction =>
      functionRule parameters (body true [.keyword .fin] .functionEnd)
    | .keyword .retourner => giveRule inFunction expression
    | .keyword .var => declareRule expression
    | .keyword .si =>
      branchRule expression
        (body inFunction [.keyword .fin, .keyword .sinon] .conditionEnd)
        (body inFunction [.keyword .fin] .conditionEnd)
    | .keyword .tantque => whileRule expression (body inFunction [.keyword .fin] .loopEnd)
    | .keyword .pour => countRule bound (body inFunction [.keyword .fin] .loopEnd)
    | .keyword .afficher => printRule expression
    | .symbol .leftBrace => blockRule (body inFunction [.symbol .rightBrace] .blockEnd)
    | _ => return .expression (← expression)

def program (allowance : Nat) : Parser Program :=
  statements (statement allowance false) [] allowance

end Parser

end Ardoise
