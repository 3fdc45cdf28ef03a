import Ardoise.Tree

/-!
# Listings

The listing of a program shows its structure: every node is a parenthesised
list headed by its kind or its operator, and every statement of the program
stands on a line of its own.  Strings are shown between double quotes and are
not escaped.
-/

namespace Ardoise

def Literal.listing : Literal → String
  | number value => Number.Format.quoted.text value
  | text content => "\"" ++ content ++ "\""
  | boolean true => "true"
  | boolean false => "false"
  | null => "null"

mutual

def Expr.listing : Expr → String
  | .literal _ value => value.listing
  | .lookup _ name => name.text
  | .assign _ target value => "(= " ++ target.text ++ " " ++ value.listing ++ ")"
  | .unary _ op operand => "(" ++ op.written ++ " " ++ operand.listing ++ ")"
  | .binary _ op left right =>
    "(" ++ op.written ++ " " ++ left.listing ++ " " ++ right.listing ++ ")"
  | .logical _ _ spelling left right =>
    "(" ++ spelling.toLower ++ " " ++ left.listing ++ " " ++ right.listing ++ ")"
  | .call _ _ callee arguments =>
    "(call " ++ callee.listing ++ Expr.listings arguments ++ ")"
  | .array _ elements => "(array" ++ Expr.listings elements ++ ")"
  | .index _ source position =>
    "(index " ++ source.listing ++ " " ++ position.listing ++ ")"

def Expr.listings : List Expr → String
  | [] => ""
  | e :: rest => " " ++ e.listing ++ Expr.listings rest

end

mutual

def Stmt.listing : Stmt → String
  | .expression value => value.listing
  | .print _ value => "(print " ++ value.listing ++ ")"
  | .declare _ name value => "(var " ++ name.text ++ " " ++ value.listing ++ ")"
  | .block ⟨_, body⟩ => "(block" ++ Stmt.listings body ++ ")"
  | .branch _ condition ⟨_, body⟩ none =>
    "(if " ++ condition.listing ++ " (block" ++ Stmt.listings body ++ "))"
  | .branch _ condition ⟨_, body⟩ (some ⟨_, other⟩) =>
    "(if " ++ condition.listing ++ " (block" ++ Stmt.listings body ++ ") (block" ++
      Stmt.listings other ++ "))"
  | .whileLoop _ condition ⟨_, body⟩ =>
    "(while " ++ condition.listing ++ " (block" ++ Stmt.listings body ++ "))"
  | .countLoop _ counter first last ⟨_, body⟩ =>
    "(for " ++ counter.text ++ " " ++ first.listing ++ " " ++ last.listing ++ " (block" ++
      Stmt.listings body ++ "))"
  | .function _ name parameters body =>
    "(function " ++ name.text ++ " (" ++ " ".intercalate (parameters.map Name.text) ++ ")" ++
      Stmt.listings body ++ ")"
  | .give _ value => "(return " ++ value.listing ++ ")"

def Stmt.listings : List Stmt → String
  | [] => ""
  | s :: rest => " " ++ s.listing ++ Stmt.listings rest

end

def Program.listing (program : Program) : String :=
  "\n".intercalate (program.map Stmt.listing)

end Ardoise
