import Ardoise.Parser.Expression

/-!
# The grammar

The rules of the language, each as a relation between a tree and the tokens that
it is read from.  The trees have no spans worth the name; parentheses, a comma
after the last element of an array and the word before the body of a counting
loop leave no trace in them.

    program     → statement*
    statement   → function | give | declare | branch | while | count | print | block | expression
    function    → "fonction" NAME "(" ( NAME ( "," NAME )* )? ")" statement* "fin"
    give        → "retourner" expression
    declare     → "var" NAME "=" expression
    branch      → "si" expression "alors" statement* ( "sinon" statement* )? "fin"
    while       → "tantque" expression "faire" statement* "fin"
    count       → "pour" NAME "entre" sum "et" sum "faire"? statement* "fin"
    print       → "afficher" expression
    block       → "{" statement* "}"
    expression  → target "=" expression | disjunction
    target      → NAME | "(" target ")"
    disjunction → conjunction ( "ou" conjunction )*
    conjunction → equality ( "et" equality )*
    equality    → comparison ( ( "!=" | "==" ) comparison )*
    comparison  → sum ( ( ">" | ">=" | "<" | "<=" ) sum )*
    sum         → product ( ( "-" | "+" ) product )*
    product     → unary ( ( "/" | "*" ) unary )*
    unary       → ( "!" | "-" ) unary | call
    call        → primary ( "(" ( expression ( "," expression )* )? ")" | "[" expression "]" )*
    primary     → NUMBER | STRING | "vrai" | "faux" | "nul" | NAME | "(" expression ")"
                | "[" ( expression ( "," expression )* ","? )? "]"
-/

namespace Ardoise

def Operator.apply (op : Operator) (token : Token) (left right : Expr) : Expr :=
  match op with
  | binary => .binary .nowhere token.kind left right
  | logical => .logical .nowhere token.kind token.lexeme left right

namespace Grammar

inductive Commas {α : Type} (item : α → List Token → Prop) : List α → List Token → Prop
  | one {a : α} {ts : List Token} (only : item a ts) : Commas item [a] ts
  | more {a : α} {as : List α} {ts us : List Token} {comma : Token} (first : item a ts)
      (separator : comma.kind = .symbol .comma) (others : Commas item as us) :
      Commas item (a :: as) (ts ++ comma :: us)

inductive Items {α : Type} (item : α → List Token → Prop) : List α → List Token → Prop
  | none : Items item [] []
  | some {as : List α} {ts : List Token} (values : Commas item as ts) : Items item as ts

inductive Named : Name → List Token → Prop
  | token {text : String} {token : Token} (kind : token.kind = .identifier text) :
      Named ⟨text, .nowhere⟩ [token]

/-- What can be assigned to: a name, in any number of parentheses. -/
inductive Target : Name → List Token → Prop
  | name {name : Name} {ts : List Token} (named : Named name ts) : Target name ts
  | parenthesised {name : Name} {ts : List Token} {opening close : Token}
      (opens : opening.kind = .symbol .leftParen) (inner : Target name ts)
      (closes : close.kind = .symbol .rightParen) : Target name (opening :: ts ++ [close])

inductive Infix : Level → Kind → Operator → Prop
  | ou : Infix .disjunction (.keyword .ou) .logical
  | et : Infix .conjunction (.keyword .et) .logical
  | notEqual : Infix .equality (.symbol .bangEqual) .binary
  | equal : Infix .equality (.symbol .equalEqual) .binary
  | greater : Infix .comparison (.symbol .greater) .binary
  | greaterEqual : Infix .comparison (.symbol .greaterEqual) .binary
  | less : Infix .comparison (.symbol .less) .binary
  | lessEqual : Infix .comparison (.symbol .lessEqual) .binary
  | subtract : Infix .sum (.symbol .minus) .binary
  | add : Infix .sum (.symbol .plus) .binary
  | divide : Infix .product (.symbol .slash) .binary
  | multiply : Infix .product (.symbol .star) .binary

inductive Sign : Kind → Prop
  | not : Sign (.symbol .bang)
  | negate : Sign (.symbol .minus)

inductive Atom : Kind → Literal → Prop
  | number (value : Float) : Atom (.number value) (.number value)
  | text (content : String) : Atom (.text content) (.text content)
  | vrai : Atom (.keyword .vrai) (.boolean true)
  | faux : Atom (.keyword .faux) (.boolean false)
  | nul : Atom (.keyword .nul) .null

mutual

inductive Expression : Expr → List Token → Prop
  | assign {name : Name} {value : Expr} {ts us : List Token} {equals : Token}
      (target : Target name ts) (sign : equals.kind = .symbol .equal)
      (assigned : Expression value us) :
      Expression (.assign .nowhere name value) (ts ++ equals :: us)
  | operation {e : Expr} {ts : List Token}
      (operation : Operation [.disjunction, .conjunction, .equality, .comparison, .sum, .product]
        e ts) : Expression e ts

inductive Operation : List Level → Expr → List Token → Prop
  | unary {e : Expr} {ts : List Token} (operand : Unary e ts) : Operation [] e ts
  | level {level : Level} {tighter : List Level} {first e : Expr} {ts us : List Token}
      (operand : Operation tighter first ts) (chain : Chain level tighter first e us) :
      Operation (level :: tighter) e (ts ++ us)

/-- Operators of one level with their right operands, of which each applies to all before it. -/
inductive Chain : Level → List Level → Expr → Expr → List Token → Prop
  | done (level : Level) (tighter : List Level) (e : Expr) : Chain level tighter e e []
  | apply {level : Level} {tighter : List Level} {op : Operator} {token : Token}
      {left right e : Expr} {ts us : List Token} (operator : Infix level token.kind op)
      (operand : Operation tighter right ts)
      (chain : Chain level tighter (op.apply token left right) e us) :
      Chain level tighter left e (token :: ts ++ us)

inductive Unary : Expr → List Token → Prop
  | apply {token : Token} {e : Expr} {ts : List Token} (sign : Sign token.kind)
      (operand : Unary e ts) : Unary (.unary .nowhere token.kind e) (token :: ts)
  | call {first e : Expr} {ts us : List Token} (primary : Primary first ts)
      (suffixes : Suffixes first e us) : Unary e (ts ++ us)

inductive Suffixes : Expr → Expr → List Token → Prop
  | done (e : Expr) : Suffixes e e []
  | call {callee e : Expr} {arguments : List Expr} {opening close : Token} {ts us : List Token}
      (opens : opening.kind = .symbol .leftParen)
      (values : Items Expression arguments ts)
      (closes : close.kind = .symbol .rightParen)
      (suffixes : Suffixes (.call .nowhere .nowhere callee arguments) e us) :
      Suffixes callee e (opening :: ts ++ close :: us)
  | index {source position e : Expr} {opening close : Token} {ts us : List Token}
      (opens : opening.kind = .symbol .leftBracket) (inner : Expression position ts)
      (closes : close.kind = .symbol .rightBracket)
      (suffixes : Suffixes (.index .nowhere source position) e us) :
      Suffixes source e (opening :: ts ++ close :: us)

inductive Primary : Expr → List Token → Prop
  | atom {token : Token} {value : Literal} (atom : Atom token.kind value) :
      Primary (.literal .nowhere value) [token]
  | name {name : Name} {ts : List Token} (named : Named name ts) :
      Primary (.lookup .nowhere name) ts
  | parenthesised {e : Expr} {opening close : Token} {ts : List Token}
      (opens : opening.kind = .symbol .leftParen) (inner : Expression e ts)
      (closes : close.kind = .symbol .rightParen) : Primary e (opening :: ts ++ [close])
  | array {elements : List Expr} {opening close : Token} {ts : List Token}
      (opens : opening.kind = .symbol .leftBracket) (inner : Elements elements ts)
      (closes : close.kind = .symbol .rightBracket) :
      Primary (.array .nowhere elements) (opening :: ts ++ [close])

inductive Elements : List Expr → List Token → Prop
  | plain {elements : List Expr} {ts : List Token} (values : Items Expression elements ts) :
      Elements elements ts
  | trailing {elements : List Expr} {comma : Token} {ts : List Token}
      (values : Commas Expression elements ts) (separator : comma.kind = .symbol .comma) :
      Elements elements (ts ++ [comma])

end

mutual

inductive Statement : Stmt → List Token → Prop
  | function {name : Name} {parameters : List Name} {body : List Stmt}
      {keyword opening close last : Token} {ts us vs : List Token}
      (begins : keyword.kind = .keyword .fonction) (named : Named name ts)
      (opens : opening.kind = .symbol .leftParen)
      (names : Items Named parameters us)
      (closes : close.kind = .symbol .rightParen) (inner : Statements body vs)
      (ends : last.kind = .keyword .fin) :
      Statement (.function .nowhere name parameters body)
        (keyword :: ts ++ opening :: us ++ close :: vs ++ [last])
  | give {value : Expr} {keyword : Token} {ts : List Token}
      (begins : keyword.kind = .keyword .retourner) (given : Expression value ts) :
      Statement (.give .nowhere value) (keyword :: ts)
  | declare {name : Name} {value : Expr} {keyword equals : Token} {ts us : List Token}
      (begins : keyword.kind = .keyword .var) (named : Named name ts)
      (sign : equals.kind = .symbol .equal) (declared : Expression value us) :
      Statement (.declare .nowhere name value) (keyword :: ts ++ equals :: us)
  | branch {condition : Expr} {body : List Stmt} {keyword middle last : Token}
      {ts us : List Token} (begins : keyword.kind = .keyword .si)
      (tested : Expression condition ts) (leads : middle.kind = .keyword .alors)
      (inner : Statements body us) (ends : last.kind = .keyword .fin) :
      Statement (.branch .nowhere condition ⟨.nowhere, body⟩ none)
        (keyword :: ts ++ middle :: us ++ [last])
  | branchOtherwise {condition : Expr} {body other : List Stmt}
      {keyword middle turn last : Token} {ts us vs : List Token}
      (begins : keyword.kind = .keyword .si) (tested : Expression condition ts)
      (leads : middle.kind = .keyword .alors) (inner : Statements body us)
      (turns : turn.kind = .keyword .sinon) (alternative : Statements other vs)
      (ends : last.kind = .keyword .fin) :
      Statement (.branch .nowhere condition ⟨.nowhere, body⟩ (some ⟨.nowhere, other⟩))
        (keyword :: ts ++ middle :: us ++ turn :: vs ++ [last])
  | whileLoop {condition : Expr} {body : List Stmt} {keyword middle last : Token}
      {ts us : List Token} (begins : keyword.kind = .keyword .tantque)
      (tested : Expression condition ts) (leads : middle.kind = .keyword .alors)
      (inner : Statements body us) (ends : last.kind = .keyword .fin) :
      Statement (.whileLoop .nowhere condition ⟨.nowhere, body⟩)
        (keyword :: ts ++ middle :: us ++ [last])
  | countLoop {counter : Name} {first final : Expr} {body : List Stmt}
      {keyword between conjunction last : Token} {ts us vs leading ws : List Token}
      (begins : keyword.kind = .keyword .pour) (named : Named counter ts)
      (ranges : between.kind = .keyword .entre) (lower : Operation [.sum, .product] first us)
      (joins : conjunction.kind = .keyword .et) (upper : Operation [.sum, .product] final vs)
      (leads : leading = [] ∨ ∃ middle : Token, middle.kind = .keyword .alors ∧ leading = [middle])
      (inner : Statements body ws) (ends : last.kind = .keyword .fin) :
      Statement (.countLoop .nowhere counter first final ⟨.nowhere, body⟩)
        (keyword :: ts ++ between :: us ++ conjunction :: vs ++ leading ++ ws ++ [last])
  | print {value : Expr} {keyword : Token} {ts : List Token}
      (begins : keyword.kind = .keyword .afficher) (printed : Expression value ts) :
      Statement (.print .nowhere value) (keyword :: ts)
  | block {body : List Stmt} {opening close : Token} {ts : List Token}
      (opens : opening.kind = .symbol .leftBrace) (inner : Statements body ts)
      (closes : close.kind = .symbol .rightBrace) :
      Statement (.block ⟨.nowhere, body⟩) (opening :: ts ++ [close])
  | expression {value : Expr} {ts : List Token} (inner : Expression value ts) :
      Statement (.expression value) ts

inductive Statements : List Stmt → List Token → Prop
  | nil : Statements [] []
  | cons {first : Stmt} {rest : List Stmt} {ts us : List Token} (statement : Statement first ts)
      (statements : Statements rest us) : Statements (first :: rest) (ts ++ us)

end

end Grammar

end Ardoise
