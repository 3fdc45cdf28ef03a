import Ardoise.Parser.Expression

/-!
# Printing programs

A tree is printed as tokens, with parentheses only where it would otherwise be
read as another tree.  An expression has a rank, which is higher the tighter it
holds together, and every place in which an expression can stand asks for a
rank; one of a lower rank is put in parentheses there.
-/

namespace Ardoise

/-! ## Ranks -/

def Level.rank : Level → Nat
  | disjunction => 1
  | conjunction => 2
  | equality => 3
  | comparison => 4
  | sum => 5
  | product => 6

/-- The level of an operator; other kinds have that of products. -/
def Kind.level : Kind → Level
  | .keyword .ou => .disjunction
  | .keyword .et => .conjunction
  | .symbol .equalEqual | .symbol .bangEqual => .equality
  | .symbol .greater | .symbol .greaterEqual | .symbol .less | .symbol .lessEqual => .comparison
  | .symbol .plus | .symbol .minus => .sum
  | _ => .product

def Expr.rank : Expr → Nat
  | assign .. => 0
  | logical _ op .. => op.level.rank
  | binary _ op .. => op.level.rank
  | unary .. => 7
  | call .. | index .. => 8
  | literal .. | lookup .. | array .. => 9

/-! ## Tokens -/

namespace Token

def of (kind : Kind) : Token := ⟨kind, kind.written, .nowhere⟩

def symbol (sign : Symbol) : Token := of (.symbol sign)

def keyword (word : Keyword) : Token := of (.keyword word)

/-- The same keyword as `alors`, as it is written in loops. -/
def faire : Token := ⟨.keyword .alors, "faire", .nowhere⟩

@[simp] theorem kind_symbol (sign : Symbol) : (symbol sign).kind = .symbol sign := rfl

@[simp] theorem kind_keyword (word : Keyword) : (keyword word).kind = .keyword word := rfl

@[simp] theorem kind_faire : faire.kind = .keyword .alors := rfl

end Token

def Name.token (name : Name) : Token := .of (.identifier name.text)

@[simp] theorem Name.kind_token (name : Name) : name.token.kind = .identifier name.text := rfl

def Literal.kind : Literal → Kind
  | number value => .number value
  | text content => .text content
  | boolean true => .keyword .vrai
  | boolean false => .keyword .faux
  | null => .keyword .nul

/-! ## Expressions -/

def enclose (opening close : Symbol) (ts : List Token) : List Token :=
  .symbol opening :: ts ++ [.symbol close]

/-- What has been printed, as it stands in a place that asks for the rank `slot`. -/
def fence (slot rank : Nat) (ts : List Token) : List Token :=
  if rank < slot then enclose .leftParen .rightParen ts else ts

def commaSeparated : List (List Token) → List Token
  | [] => []
  | [ts] => ts
  | ts :: us :: rest => ts ++ .symbol .comma :: commaSeparated (us :: rest)

mutual

def Expr.tokens : Expr → List Token
  | .literal _ value => [.of value.kind]
  | .lookup _ name => [name.token]
  | .assign _ target value => target.token :: .symbol .equal :: value.tokens
  | .unary _ op operand => .of op :: fence 7 operand.rank operand.tokens
  | .binary _ op left right =>
      fence op.level.rank left.rank left.tokens ++
        .of op :: fence (op.level.rank + 1) right.rank right.tokens
  | .logical _ op spelling left right =>
      fence op.level.rank left.rank left.tokens ++
        ⟨op, spelling, .nowhere⟩ :: fence (op.level.rank + 1) right.rank right.tokens
  | .call _ _ callee arguments =>
      fence 8 callee.rank callee.tokens ++
        enclose .leftParen .rightParen (commaSeparated (Expr.tokensEach arguments))
  | .array _ elements =>
      enclose .leftBracket .rightBracket (commaSeparated (Expr.tokensEach elements))
  | .index _ source position =>
      fence 8 source.rank source.tokens ++ enclose .leftBracket .rightBracket position.tokens

def Expr.tokensEach : List Expr → List (List Token)
  | [] => []
  | e :: rest => e.tokens :: Expr.tokensEach rest

end

/-! ## Statements -/

mutual

def Stmt.tokens : Stmt → List Token
  | .expression value => value.tokens
  | .print _ value => .keyword .afficher :: value.tokens
  | .declare _ name value => .keyword .var :: name.token :: .symbol .equal :: value.tokens
  | .block ⟨_, body⟩ => enclose .leftBrace .rightBrace (Stmt.tokensAll body)
  | .branch _ condition ⟨_, body⟩ none =>
      .keyword .si :: condition.tokens ++ .keyword .alors :: Stmt.tokensAll body ++ [.keyword .fin]
  | .branch _ condition ⟨_, body⟩ (some ⟨_, other⟩) =>
      .keyword .si :: condition.tokens ++ .keyword .alors :: Stmt.tokensAll body ++
        .keyword .sinon :: Stmt.tokensAll other ++ [.keyword .fin]
  | .whileLoop _ condition ⟨_, body⟩ =>
      .keyword .tantque :: condition.tokens ++ .faire :: Stmt.tokensAll body ++ [.keyword .fin]
  | .countLoop _ counter first last ⟨_, body⟩ =>
      .keyword .pour :: counter.token :: .keyword .entre :: fence 5 first.rank first.tokens ++
        .keyword .et :: fence 5 last.rank last.tokens ++
          .faire :: Stmt.tokensAll body ++ [.keyword .fin]
  | .function _ name parameters body =>
      .keyword .fonction :: name.token ::
        enclose .leftParen .rightParen (commaSeparated (parameters.map fun name => [name.token])) ++
          Stmt.tokensAll body ++ [.keyword .fin]
  | .give _ value => .keyword .retourner :: value.tokens

def Stmt.tokensAll : List Stmt → List Token
  | [] => []
  | s :: rest => s.tokens ++ Stmt.tokensAll rest

end

/-! ## Programs that can be read back -/

def Kind.isBinary : Kind → Bool
  | .symbol .plus | .symbol .minus | .symbol .star | .symbol .slash
  | .symbol .greater | .symbol .greaterEqual | .symbol .less | .symbol .lessEqual
  | .symbol .equalEqual | .symbol .bangEqual => true
  | _ => false

def Kind.isLogical : Kind → Bool
  | .keyword .et | .keyword .ou => true
  | _ => false

theorem Level.operator?_eq_binary {level : Level} {kind : Kind} :
    level.operator? kind = some .binary ↔ kind.isBinary = true ∧ kind.level = level := by
  constructor
  · intro h
    unfold Level.operator? at h
    split at h <;> first | exact ⟨rfl, rfl⟩ | cases h
  · rintro ⟨h, rfl⟩
    unfold Kind.isBinary at h
    split at h <;> first | rfl | cases h

theorem Level.operator?_eq_logical {level : Level} {kind : Kind} :
    level.operator? kind = some .logical ↔ kind.isLogical = true ∧ kind.level = level := by
  constructor
  · intro h
    unfold Level.operator? at h
    split at h <;> first | exact ⟨rfl, rfl⟩ | cases h
  · rintro ⟨h, rfl⟩
    unfold Kind.isLogical at h
    split at h <;> first | rfl | cases h

mutual

def Expr.operatorsFit : Expr → Bool
  | .literal .. | .lookup .. => true
  | .assign _ _ value => value.operatorsFit
  | .unary _ op operand => op.isSign && operand.operatorsFit
  | .binary _ op left right => op.isBinary && left.operatorsFit && right.operatorsFit
  | .logical _ op _ left right => op.isLogical && left.operatorsFit && right.operatorsFit
  | .call _ _ callee arguments => callee.operatorsFit && Expr.allOperatorsFit arguments
  | .array _ elements => Expr.allOperatorsFit elements
  | .index _ source position => source.operatorsFit && position.operatorsFit

def Expr.allOperatorsFit : List Expr → Bool
  | [] => true
  | e :: rest => e.operatorsFit && Expr.allOperatorsFit rest

end

mutual

def Stmt.operatorsFit : Stmt → Bool
  | .expression value | .print _ value | .declare _ _ value | .give _ value => value.operatorsFit
  | .block ⟨_, body⟩ | .function _ _ _ body => Stmt.allOperatorsFit body
  | .branch _ condition ⟨_, body⟩ none | .whileLoop _ condition ⟨_, body⟩ =>
      condition.operatorsFit && Stmt.allOperatorsFit body
  | .branch _ condition ⟨_, body⟩ (some ⟨_, other⟩) =>
      condition.operatorsFit && Stmt.allOperatorsFit body && Stmt.allOperatorsFit other
  | .countLoop _ _ first last ⟨_, body⟩ =>
      first.operatorsFit && last.operatorsFit && Stmt.allOperatorsFit body

def Stmt.allOperatorsFit : List Stmt → Bool
  | [] => true
  | s :: rest => s.operatorsFit && Stmt.allOperatorsFit rest

end

def Stmt.endsInExpression : Stmt → Bool
  | .expression _ | .print .. | .declare .. | .give .. => true
  | _ => false

/-- Whether a statement is printed so that it could go on with an expression before it. -/
def Stmt.couldGoOn (s : Stmt) : Bool :=
  s.tokens.head?.any fun token =>
    token.kind ∈ [.symbol .leftParen, .symbol .leftBracket, .symbol .minus]

mutual

/-- Nowhere in the statement does one follow another as if it went on with it. -/
def Stmt.apart : Stmt → Bool
  | .block ⟨_, body⟩ => Stmt.apartAll body
  | .branch _ _ ⟨_, body⟩ none => Stmt.apartAll body
  | .branch _ _ ⟨_, body⟩ (some ⟨_, other⟩) => Stmt.apartAll body && Stmt.apartAll other
  | .whileLoop _ _ ⟨_, body⟩ => Stmt.apartAll body
  | .countLoop _ _ _ _ ⟨_, body⟩ => Stmt.apartAll body
  | .function _ _ _ body => Stmt.apartAll body
  | .expression _ | .print .. | .declare .. | .give .. => true

def Stmt.apartAll : List Stmt → Bool
  | [] => true
  | [s] => s.apart
  | s :: t :: rest => s.apart && !(s.endsInExpression && t.couldGoOn) && Stmt.apartAll (t :: rest)

end

mutual

def Stmt.givesInside (inFunction : Bool) : Stmt → Bool
  | .give .. => inFunction
  | .block ⟨_, body⟩ => Stmt.giveInside inFunction body
  | .branch _ _ ⟨_, body⟩ none => Stmt.giveInside inFunction body
  | .branch _ _ ⟨_, body⟩ (some ⟨_, other⟩) =>
      Stmt.giveInside inFunction body && Stmt.giveInside inFunction other
  | .whileLoop _ _ ⟨_, body⟩ => Stmt.giveInside inFunction body
  | .countLoop _ _ _ _ ⟨_, body⟩ => Stmt.giveInside inFunction body
  | .function _ _ _ body => Stmt.giveInside true body
  | .expression _ | .print .. | .declare .. => true

def Stmt.giveInside (inFunction : Bool) : List Stmt → Bool
  | [] => true
  | s :: rest => s.givesInside inFunction && Stmt.giveInside inFunction rest

end

end Ardoise
