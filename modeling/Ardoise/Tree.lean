import Ardoise.Token

/-!
# Programs

A program is a list of statements.  Every node keeps the span it was read from,
which is what errors point at: parentheses widen the span of the expression
they enclose and leave no node of their own, and a call has the span of its
callee, with a second one for its arguments.  An operation keeps the kind of
the token that its operator was read from, whatever that is.
-/

namespace Ardoise

structure Name where
  text : String
  span : Span
  deriving DecidableEq

inductive Literal where
  | number (value : Float)
  | text (content : String)
  | boolean (value : Bool)
  | null
  deriving DecidableEq

inductive Expr where
  | literal (span : Span) (value : Literal)
  | lookup (span : Span) (name : Name)
  | assign (span : Span) (target : Name) (value : Expr)
  | unary (span : Span) (op : Kind) (operand : Expr)
  | binary (span : Span) (op : Kind) (left right : Expr)
  /-- The spelling is the operator as the program writes it. -/
  | logical (span : Span) (op : Kind) (spelling : String) (left right : Expr)
  | call (span argumentsSpan : Span) (callee : Expr) (arguments : List Expr)
  | array (span : Span) (elements : List Expr)
  | index (span : Span) (source position : Expr)

namespace Expr

def span : Expr → Span
  | literal span _ | lookup span _ | assign span .. | unary span .. | binary span ..
  | logical span .. | call span .. | array span _ | index span .. => span

def widen (span : Span) : Expr → Expr
  | literal _ value => literal span value
  | lookup _ name => lookup span name
  | assign _ target value => assign span target value
  | unary _ op operand => unary span op operand
  | binary _ op left right => binary span op left right
  | logical _ op spelling left right => logical span op spelling left right
  | call _ argumentsSpan callee arguments => call span argumentsSpan callee arguments
  | array _ elements => array span elements
  | index _ source position => index span source position

@[simp] theorem span_widen (span : Span) (e : Expr) : (e.widen span).span = span := by
  cases e <;> rfl

end Expr

/-- Statements of type `σ` closed by a delimiter, which the span includes. -/
structure Block (σ : Type) where
  span : Span
  body : List σ

inductive Stmt where
  | expression (value : Expr)
  | print (span : Span) (value : Expr)
  | declare (span : Span) (name : Name) (value : Expr)
  | block (body : Block Stmt)
  | branch (span : Span) (condition : Expr) (body : Block Stmt) (otherwise : Option (Block Stmt))
  | whileLoop (span : Span) (condition : Expr) (body : Block Stmt)
  /-- Counts from `first` to `last`, both included. -/
  | countLoop (span : Span) (counter : Name) (first last : Expr) (body : Block Stmt)
  | function (span : Span) (name : Name) (parameters : List Name) (body : List Stmt)
  | give (span : Span) (value : Expr)

namespace Stmt

def span : Stmt → Span
  | expression value => value.span
  | block body => body.span
  | print span _ | declare span .. | branch span .. | whileLoop span .. | countLoop span ..
  | function span .. | give span _ => span

end Stmt

abbrev Program := List Stmt

end Ardoise
