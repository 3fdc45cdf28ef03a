import Ardoise.Parser.Expression

/-!
# Derivations

How a tree was read: from which tokens, with which spans, and inside how many
levels of nesting.  Where the grammar says which trees there are, a derivation
says what else the parser kept count of on the way.
-/

namespace Ardoise

inductive Joined : List (List Token) → List Token → Prop
  | none : Joined [] []
  | one (ts : List Token) : Joined [ts] ts
  | more {ts us : List Token} {others : List (List Token)} {comma : Token}
      (separator : comma.kind = .symbol .comma) (joined : Joined others us) :
      Joined (ts :: others) (ts ++ comma :: us)

/-- The rules for expressions.  Some continue an expression that stands on their left. -/
inductive Rule where
  | expression
  | assignment
  | operators (levels : List Level)
  | operations (level : Level) (tighter : List Level) (left : Expr)
  | operand
  | suffixes (left : Expr)
  | primary

/--
The rule gives the expression for the tokens, inside `n` levels of nesting.  There
is room for another level where there are less than `limit`.
-/
inductive Derives (limit : Nat) : Rule → Nat → Expr → List Token → Prop
  | literal {n : Nat} {token : Token} {value : Literal}
      (kind : Parser.literal? token.kind = some value) :
      Derives limit .primary n (.literal token.span value) [token]
  | name {n : Nat} {token : Token} {text : String} (kind : token.kind = .identifier text) :
      Derives limit .primary n (.lookup token.span ⟨text, token.span⟩) [token]
  | parenthesised {n : Nat} {e : Expr} {opening close : Token} {ts : List Token}
      (opens : opening.kind = .symbol .leftParen) (inner : Derives limit .expression n e ts)
      (closes : close.kind = .symbol .rightParen) :
      Derives limit .primary n (e.widen (opening.span.upTo close.span)) (opening :: ts ++ [close])
  | array {n : Nat} {elements : List (Expr × List Token)} {opening close : Token} {ts : List Token}
      (opens : opening.kind = .symbol .leftBracket)
      (each : ∀ element ∈ elements, Derives limit .expression n element.1 element.2)
      (joined : Joined (elements.map Prod.snd) ts) (closes : close.kind = .symbol .rightBracket) :
      Derives limit .primary n (.array (opening.span.upTo close.span) (elements.map Prod.fst))
        (opening :: ts ++ [close])
  | bare {n : Nat} (e : Expr) : Derives limit (.suffixes e) n e []
  | call {n : Nat} {callee e : Expr} {arguments : List (Expr × List Token)}
      {opening close : Token} {ts us : List Token} (room : n < limit)
      (opens : opening.kind = .symbol .leftParen)
      (each : ∀ argument ∈ arguments, Derives limit .expression (n + 1) argument.1 argument.2)
      (joined : Joined (arguments.map Prod.snd) ts) (closes : close.kind = .symbol .rightParen)
      (rest : Derives limit (.suffixes (.call callee.span (opening.span.upTo close.span) callee
        (arguments.map Prod.fst))) (n + 1) e us) :
      Derives limit (.suffixes callee) n e (opening :: ts ++ close :: us)
  | index {n : Nat} {source position e : Expr} {opening close : Token} {ts us : List Token}
      (room : n < limit) (opens : opening.kind = .symbol .leftBracket)
      (inner : Derives limit .expression (n + 1) position ts)
      (closes : close.kind = .symbol .rightBracket)
      (rest : Derives limit (.suffixes (.index (source.span.upTo close.span) source position))
        (n + 1) e us) :
      Derives limit (.suffixes source) n e (opening :: ts ++ close :: us)
  | postfixed {n : Nat} {first e : Expr} {ts us : List Token}
      (primary : Derives limit .primary n first ts)
      (rest : Derives limit (.suffixes first) n e us) : Derives limit .operand n e (ts ++ us)
  | prefixed {n : Nat} {token : Token} {e : Expr} {ts : List Token}
      (room : n < limit) (sign : token.kind.isSign = true)
      (operand : Derives limit .operand (n + 1) e ts) :
      Derives limit .operand n (.unary (token.span.upTo e.span) token.kind e) (token :: ts)
  | plain {n : Nat} {e : Expr} {ts : List Token} (operand : Derives limit .operand n e ts) :
      Derives limit (.operators []) n e ts
  | level {n : Nat} {level : Level} {tighter : List Level} {first e : Expr} {ts us : List Token}
      (operand : Derives limit (.operators tighter) n first ts)
      (rest : Derives limit (.operations level tighter first) n e us) :
      Derives limit (.operators (level :: tighter)) n e (ts ++ us)
  | done {n : Nat} {level : Level} {tighter : List Level} (e : Expr) :
      Derives limit (.operations level tighter e) n e []
  | apply {n : Nat} {level : Level} {tighter : List Level} {op : Operator} {token : Token}
      {left right e : Expr} {ts us : List Token} (room : n < limit)
      (operator : level.operator? token.kind = some op)
      (operand : Derives limit (.operators tighter) (n + 1) right ts)
      (rest : Derives limit (.operations level tighter (op.join token left right)) (n + 1) e us) :
      Derives limit (.operations level tighter left) n e (token :: ts ++ us)
  | assign {n : Nat} {span : Span} {target : Name} {value : Expr} {equals : Token}
      {ts us : List Token} (room : n < limit)
      (left : Derives limit (.operators Level.all) n (.lookup span target) ts)
      (sign : equals.kind = .symbol .equal)
      (assigned : Derives limit .assignment (n + 1) value us) :
      Derives limit .assignment n (.assign (target.span.upTo value.span) target value)
        (ts ++ equals :: us)
  | unassigned {n : Nat} {e : Expr} {ts : List Token}
      (operators : Derives limit (.operators Level.all) n e ts) : Derives limit .assignment n e ts
  | nested {n : Nat} {e : Expr} {ts : List Token} (room : n < limit)
      (inner : Derives limit .assignment (n + 1) e ts) : Derives limit .expression n e ts

def Name.IsAt (name : Name) (ts : List Token) : Prop :=
  ∃ token : Token, ts = [token] ∧ token.kind = .identifier name.text ∧ name.span = token.span

/--
The statement is read from the tokens, inside `n` levels of nesting; the first
argument tells whether that is in the body of a function.
-/
inductive StmtDerives (limit : Nat) : Bool → Nat → Stmt → List Token → Prop
  | function {f : Bool} {n : Nat} {name : Name} {parameters : List (Name × List Token)}
      {body : List (Stmt × List Token)} {keyword opening close last : Token} {own ts : List Token}
      (room : n < limit) (begins : keyword.kind = .keyword .fonction) (named : name.IsAt own)
      (opens : opening.kind = .symbol .leftParen)
      (names : ∀ parameter ∈ parameters, parameter.1.IsAt parameter.2)
      (joined : Joined (parameters.map Prod.snd) ts)
      (closes : close.kind = .symbol .rightParen)
      (each : ∀ s ∈ body, StmtDerives limit true (n + 1) s.1 s.2)
      (ends : last.kind = .keyword .fin) :
      StmtDerives limit f n (.function (keyword.span.upTo last.span) name
          (parameters.map Prod.fst) (body.map Prod.fst))
        (keyword :: own ++ opening :: ts ++ close :: (body.map Prod.snd).flatten ++ [last])
  | give {n : Nat} {value : Expr} {keyword : Token} {ts : List Token}
      (begins : keyword.kind = .keyword .retourner)
      (given : Derives limit .expression n value ts) :
      StmtDerives limit true n (.give (keyword.span.upTo value.span) value) (keyword :: ts)
  | declare {f : Bool} {n : Nat} {name : Name} {value : Expr} {keyword equals : Token}
      {own ts : List Token} (begins : keyword.kind = .keyword .var) (named : name.IsAt own)
      (sign : equals.kind = .symbol .equal) (declared : Derives limit .expression n value ts) :
      StmtDerives limit f n (.declare (keyword.span.upTo value.span) name value)
        (keyword :: own ++ equals :: ts)
  | branch {f : Bool} {n : Nat} {condition : Expr} {body : List (Stmt × List Token)} {span : Span}
      {keyword middle last : Token} {ts : List Token} (room : n < limit)
      (begins : keyword.kind = .keyword .si) (tested : Derives limit .expression n condition ts)
      (leads : middle.kind = .keyword .alors)
      (each : ∀ s ∈ body, StmtDerives limit f (n + 1) s.1 s.2) (ends : last.kind = .keyword .fin) :
      StmtDerives limit f n (.branch (keyword.span.upTo last.span) condition
          ⟨span, body.map Prod.fst⟩ none)
        (keyword :: ts ++ middle :: (body.map Prod.snd).flatten ++ [last])
  | branchOtherwise {f : Bool} {n : Nat} {condition : Expr} {body other : List (Stmt × List Token)}
      {span span' : Span} {keyword middle turn last : Token} {ts : List Token} (room : n < limit)
      (begins : keyword.kind = .keyword .si) (tested : Derives limit .expression n condition ts)
      (leads : middle.kind = .keyword .alors)
      (each : ∀ s ∈ body, StmtDerives limit f (n + 1) s.1 s.2)
      (turns : turn.kind = .keyword .sinon)
      (alternative : ∀ s ∈ other, StmtDerives limit f (n + 1) s.1 s.2)
      (ends : last.kind = .keyword .fin) :
      StmtDerives limit f n (.branch (keyword.span.upTo last.span) condition
          ⟨span, body.map Prod.fst⟩ (some ⟨span', other.map Prod.fst⟩))
        (keyword :: ts ++ middle :: (body.map Prod.snd).flatten ++
          turn :: (other.map Prod.snd).flatten ++ [last])
  | whileLoop {f : Bool} {n : Nat} {condition : Expr} {body : List (Stmt × List Token)}
      {span : Span} {keyword middle last : Token} {ts : List Token} (room : n < limit)
      (begins : keyword.kind = .keyword .tantque)
      (tested : Derives limit .expression n condition ts) (leads : middle.kind = .keyword .alors)
      (each : ∀ s ∈ body, StmtDerives limit f (n + 1) s.1 s.2) (ends : last.kind = .keyword .fin) :
      StmtDerives limit f n (.whileLoop (keyword.span.upTo last.span) condition
          ⟨span, body.map Prod.fst⟩)
        (keyword :: ts ++ middle :: (body.map Prod.snd).flatten ++ [last])
  | countLoop {f : Bool} {n : Nat} {counter : Name} {first final : Expr}
      {body : List (Stmt × List Token)} {span : Span} {keyword between conjunction last : Token}
      {own ts us leading : List Token} (room : n < limit) (begins : keyword.kind = .keyword .pour)
      (named : counter.IsAt own) (ranges : between.kind = .keyword .entre)
      (lower : Derives limit (.operators Level.arithmetic) n first ts)
      (joins : conjunction.kind = .keyword .et)
      (upper : Derives limit (.operators Level.arithmetic) n final us)
      (each : ∀ s ∈ body, StmtDerives limit f (n + 1) s.1 s.2) (ends : last.kind = .keyword .fin) :
      StmtDerives limit f n (.countLoop (keyword.span.upTo last.span) counter first final
          ⟨span, body.map Prod.fst⟩)
        (keyword :: own ++ between :: ts ++ conjunction :: us ++ leading ++
          (body.map Prod.snd).flatten ++ [last])
  | print {f : Bool} {n : Nat} {value : Expr} {keyword : Token} {ts : List Token}
      (begins : keyword.kind = .keyword .afficher)
      (printed : Derives limit .expression n value ts) :
      StmtDerives limit f n (.print (keyword.span.upTo value.span) value) (keyword :: ts)
  | block {f : Bool} {n : Nat} {body : List (Stmt × List Token)} {opening close : Token}
      (room : n < limit) (opens : opening.kind = .symbol .leftBrace)
      (each : ∀ s ∈ body, StmtDerives limit f (n + 1) s.1 s.2)
      (closes : close.kind = .symbol .rightBrace) :
      StmtDerives limit f n (.block ⟨opening.span.upTo close.span, body.map Prod.fst⟩)
        (opening :: (body.map Prod.snd).flatten ++ [close])
  | expression {f : Bool} {n : Nat} {value : Expr} {ts : List Token}
      (inner : Derives limit .expression n value ts) : StmtDerives limit f n (.expression value) ts

end Ardoise
