import Ardoise.Tree.Listing
import Ardoise.Proofs.Blur
import Ardoise.Proofs.Provenance
import Ardoise.Proofs.Numbers.Printing
import Ardoise.Proofs.Parsing.Printing
import Ardoise.Proofs.Scanning.Lexemes
import Ardoise.Proofs.Listings.Readability

/-!
# Listings of trees

Each node of a tree is listed as a list that starts with a word for its kind.  The
words of different kinds differ, up to the minus sign, which stands before one operand
or before two.  So a tree can be told from its listing, as long as its leaves can:
names must be words that mean nothing else, numbers finite, and texts without a
double quote.
-/

namespace Ardoise

/-! ## The words that lists start with -/

def Kind.spellings : Kind → List String
  | .keyword word => word.spellings
  | _ => []

inductive Head where
  | sign (op : Kind)
  /-- A logical operator, and the word for it. -/
  | joint (op : Kind) (word : String)
  | call | array | index
  | print | declare | block | branch | whileLoop | countLoop | function | give
  deriving DecidableEq

namespace Head

def text : Head → String
  | sign op => op.written
  | joint _ word => word
  | call => "call"
  | array => "array"
  | index => "index"
  | print => "print"
  | declare => "var"
  | block => "block"
  | branch => "if"
  | whileLoop => "while"
  | countLoop => "for"
  | function => "function"
  | give => "return"

def statements : List Head :=
  [print, declare, block, branch, whileLoop, countLoop, function, give]

def all : List Head :=
  [sign (.symbol .minus), sign (.symbol .bang), sign (.symbol .plus), sign (.symbol .star),
    sign (.symbol .slash), sign (.symbol .greater), sign (.symbol .greaterEqual),
    sign (.symbol .less), sign (.symbol .lessEqual), sign (.symbol .equalEqual),
    sign (.symbol .bangEqual), sign (.symbol .equal),
    joint (.keyword .et) "et", joint (.keyword .et) "and",
    joint (.keyword .ou) "ou", joint (.keyword .ou) "or",
    call, array, index] ++ statements

theorem text_inj : ∀ h ∈ all, ∀ h' ∈ all, h.text = h'.text → h = h' := by
  decide +kernel

private theorem text_plain : ∀ h ∈ all,
    h.text.toList ≠ [] ∧ ∀ c ∈ h.text.toList, c ∉ Sexp.delimiters := by
  intro h known
  fin_cases known <;> simp [text, Kind.written, Symbol.text, Sexp.delimiters]

theorem unary_mem {op : Kind} (h : op.isSign = true) : sign op ∈ all := by
  unfold Kind.isSign at h
  split at h <;> first | decide | cases h

theorem binary_mem {op : Kind} (h : op.isBinary = true) : sign op ∈ all := by
  unfold Kind.isBinary at h
  split at h <;> first | decide | cases h

theorem joint_mem {op : Kind} {word : String} (h : op.isLogical = true)
    (spelled : word ∈ op.spellings) : joint op word ∈ all := by
  have et : ∀ word ∈ Keyword.et.spellings, joint (.keyword .et) word ∈ all := by decide
  have ou : ∀ word ∈ Keyword.ou.spellings, joint (.keyword .ou) word ∈ all := by decide
  unfold Kind.isLogical at h
  split at h
  · exact et word spelled
  · exact ou word spelled
  · cases h

end Head

def Sexp.node (head : Head) (items : List Sexp) : Sexp :=
  .list (.word head.text.toList :: items)

namespace Sexp

theorem text_node (head : Head) (items : List Sexp) :
    (node head items).text = '(' :: head.text.toList ++ textAfter items ++ [')'] := by
  simp [node, text, textInside]

theorem proper_node {head : Head} {items : List Sexp} (known : head ∈ Head.all)
    (each : ∀ item ∈ items, item.Proper) : (node head items).Proper := by
  obtain ⟨filled, plain⟩ := Head.text_plain head known
  exact .list (List.forall_mem_cons.mpr ⟨.word filled plain, each⟩)

theorem node_inj {head head' : Head} {items items' : List Sexp} (known : head ∈ Head.all)
    (known' : head' ∈ Head.all) (same : node head items = node head' items') :
    head = head' ∧ items = items' := by
  simp only [node, list.injEq, List.cons.injEq, word.injEq, String.toList_inj] at same
  exact ⟨Head.text_inj head known head' known' same.1, same.2⟩

/-- The item is the list with this head and these items; or no list that has a head. -/
def Shows (item : Sexp) : Option (Head × List Sexp) → Prop
  | some (head, items) => item = .node head items ∧ head ∈ Head.all
  | none => ∀ head items, item ≠ .node head items

theorem Shows.unique {item : Sexp} {node node' : Option (Head × List Sexp)}
    (h : item.Shows node) (h' : item.Shows node') : node = node' := by
  cases node with
  | none =>
      cases node' with
      | none => rfl
      | some node' => exact absurd h'.1 (h _ _)
  | some node =>
      cases node' with
      | none => exact absurd h.1 (h' _ _)
      | some node' =>
          obtain ⟨heads, items⟩ := node_inj h.2 h'.2 (h.1.symm.trans h'.1)
          exact congrArg some (Prod.ext heads items)

end Sexp

/-! ## Trees as lists -/

def Name.sexp (name : Name) : Sexp := .word name.text.toList

def Literal.sexp : Literal → Sexp
  | number value => .word (Number.Format.quoted.text value).toList
  | text content => .quoted content.toList
  | boolean true => .word "true".toList
  | boolean false => .word "false".toList
  | null => .word "null".toList

theorem Literal.toList_listing (value : Literal) : value.listing.toList = value.sexp.text := by
  cases value with
  | number value => rfl
  | text content => simp [listing, sexp, Sexp.text]
  | boolean value => cases value <;> rfl
  | null => rfl

namespace Expr

mutual

def sexp : Expr → Sexp
  | literal _ value => value.sexp
  | lookup _ name => name.sexp
  | assign _ target value => .node (.sign (.symbol .equal)) [target.sexp, value.sexp]
  | unary _ op operand => .node (.sign op) [operand.sexp]
  | binary _ op left right => .node (.sign op) [left.sexp, right.sexp]
  | logical _ op spelling left right =>
      .node (.joint op spelling.toLower) [left.sexp, right.sexp]
  | call _ _ callee arguments => .node .call (callee.sexp :: sexps arguments)
  | array _ elements => .node .array (sexps elements)
  | index _ source position => .node .index [source.sexp, position.sexp]

def sexps : List Expr → List Sexp
  | [] => []
  | e :: rest => e.sexp :: sexps rest

end

mutual

theorem toList_listing : (e : Expr) → e.listing.toList = e.sexp.text
  | literal _ value => value.toList_listing
  | lookup _ name => rfl
  | assign _ target value => by
      simp [listing, sexp, Sexp.text_node, Sexp.textAfter, Name.sexp, Sexp.text,
        toList_listing value, Head.text, Kind.written, Symbol.text]
  | unary _ op operand => by
      simp [listing, sexp, Sexp.text_node, Sexp.textAfter, Head.text,
        toList_listing operand]
  | binary _ op left right => by
      simp [listing, sexp, Sexp.text_node, Sexp.textAfter, Head.text,
        toList_listing left, toList_listing right]
  | logical _ op spelling left right => by
      simp [listing, sexp, Sexp.text_node, Sexp.textAfter, Head.text,
        toList_listing left, toList_listing right]
  | call _ _ callee arguments => by
      simp [listing, sexp, Sexp.text_node, Sexp.textAfter, Head.text,
        toList_listing callee, toList_listings arguments]
  | array _ elements => by
      simp [listing, sexp, Sexp.text_node, Head.text, toList_listings elements]
  | index _ source position => by
      simp [listing, sexp, Sexp.text_node, Sexp.textAfter, Head.text,
        toList_listing source, toList_listing position]

theorem toList_listings : (es : List Expr) → (listings es).toList = Sexp.textAfter (sexps es)
  | [] => rfl
  | e :: rest => by
      rw [listings, sexps, Sexp.textAfter, String.toList_append, String.toList_append,
        toList_listing e, toList_listings rest]
      rfl

end

end Expr

theorem toList_intercalate_cons (separator first : String) (rest : List String) :
    (separator.intercalate (first :: rest)).toList =
      first.toList ++ rest.flatMap fun text => separator.toList ++ text.toList := by
  induction rest generalizing first with
  | nil => simp
  | cons second rest ih =>
      rw [String.intercalate_cons_cons, String.toList_append, ih]
      simp

namespace Stmt

mutual

def sexp : Stmt → Sexp
  | expression value => value.sexp
  | print _ value => .node .print [value.sexp]
  | declare _ name value => .node .declare [name.sexp, value.sexp]
  | block ⟨_, body⟩ => .node .block (sexps body)
  | branch _ condition ⟨_, body⟩ none =>
      .node .branch [condition.sexp, .node .block (sexps body)]
  | branch _ condition ⟨_, body⟩ (some ⟨_, other⟩) =>
      .node .branch [condition.sexp, .node .block (sexps body), .node .block (sexps other)]
  | whileLoop _ condition ⟨_, body⟩ =>
      .node .whileLoop [condition.sexp, .node .block (sexps body)]
  | countLoop _ counter first last ⟨_, body⟩ =>
      .node .countLoop [counter.sexp, first.sexp, last.sexp, .node .block (sexps body)]
  | function _ name parameters body =>
      .node .function (name.sexp :: .list (parameters.map Name.sexp) :: sexps body)
  | give _ value => .node .give [value.sexp]

def sexps : List Stmt → List Sexp
  | [] => []
  | s :: rest => s.sexp :: sexps rest

end

private theorem toList_parameters (parameters : List Name) :
    (" ".intercalate (parameters.map Name.text)).toList =
      Sexp.textInside (parameters.map Name.sexp) := by
  have after : ∀ rest : List Name,
      Sexp.textAfter (rest.map Name.sexp) = (rest.map Name.text).flatMap (' ' :: ·.toList) := by
    intro rest
    induction rest with
    | nil => rfl
    | cons name rest ih =>
        rw [List.map_cons, Sexp.textAfter, ih]
        rfl
  cases parameters with
  | nil => rfl
  | cons first rest =>
      rw [List.map_cons, List.map_cons, toList_intercalate_cons, Sexp.textInside, after]
      rfl

mutual

theorem toList_listing : (s : Stmt) → s.listing.toList = s.sexp.text
  | expression value => value.toList_listing
  | print _ value | give _ value => by
      simp [listing, sexp, Sexp.text_node, Sexp.textAfter, Head.text, value.toList_listing]
  | declare _ name value => by
      simp [listing, sexp, Sexp.text_node, Sexp.textAfter, Head.text, value.toList_listing,
        Name.sexp, Sexp.text]
  | block ⟨_, body⟩ => by
      simp [listing, sexp, Sexp.text_node, Head.text, toList_listings body]
  | branch _ condition ⟨_, body⟩ none => by
      simp [listing, sexp, Sexp.text_node, Sexp.textAfter, Head.text, condition.toList_listing,
        toList_listings body]
  | branch _ condition ⟨_, body⟩ (some ⟨_, other⟩) => by
      simp [listing, sexp, Sexp.text_node, Sexp.textAfter, Head.text, condition.toList_listing,
        toList_listings body, toList_listings other]
  | whileLoop _ condition ⟨_, body⟩ => by
      simp [listing, sexp, Sexp.text_node, Sexp.textAfter, Head.text, condition.toList_listing,
        toList_listings body]
  | countLoop _ counter first last ⟨_, body⟩ => by
      simp [listing, sexp, Sexp.text_node, Sexp.textAfter, Head.text, first.toList_listing,
        last.toList_listing, toList_listings body, Name.sexp, Sexp.text]
  | function _ name parameters body => by
      simp [-String.toList_intercalate, listing, sexp, Sexp.text_node, Sexp.textAfter, Head.text,
        toList_parameters, toList_listings body, Name.sexp, Sexp.text]

theorem toList_listings : (ss : List Stmt) → (listings ss).toList = Sexp.textAfter (sexps ss)
  | [] => rfl
  | s :: rest => by
      rw [listings, sexps, Sexp.textAfter, String.toList_append, String.toList_append,
        toList_listing s, toList_listings rest]
      rfl

end

end Stmt

theorem Program.toList_listing (program : Program) :
    (Program.listing program).toList = Sexp.lines (Stmt.sexps program) := by
  have after : ∀ rest : List Stmt, Sexp.linesAfter (Stmt.sexps rest) =
      (rest.map Stmt.listing).flatMap ('\n' :: ·.toList) := by
    intro rest
    induction rest with
    | nil => rfl
    | cons s rest ih =>
        rw [Stmt.sexps, Sexp.linesAfter, ih, ← s.toList_listing]
        rfl
  cases program with
  | nil => rfl
  | cons first rest =>
      rw [Program.listing, List.map_cons, toList_intercalate_cons, Stmt.sexps, Sexp.lines, after,
        first.toList_listing]
      rfl

/-! ## Legible trees -/

def Name.Legible (name : Name) : Prop :=
  IsWord name.text.toList ∧ ∀ keyword : Keyword, ¬ keyword.IsSpelled name.text.toList

def Literal.Legible : Literal → Prop
  | number value => ∃ negative mantissa exponent,
      Number.form value = .finite negative mantissa exponent
  | text content => '"' ∉ content.toList
  | boolean _ | null => True

/-- What the node says besides its parts is legible. -/
def Expr.Legible : Expr → Prop
  | literal _ value => value.Legible
  | lookup _ name | assign _ name _ => name.Legible
  | unary _ op _ => op.isSign = true
  | binary _ op _ _ => op.isBinary = true
  | logical _ op spelling _ _ => op.isLogical = true ∧ spelling.toLower ∈ op.spellings
  | call _ _ _ _ | array _ _ | index _ _ _ => True

def Stmt.Legible : Stmt → Prop
  | declare _ name _ | countLoop _ name _ _ _ => name.Legible
  | function _ name parameters _ => name.Legible ∧ ∀ parameter ∈ parameters, parameter.Legible
  | expression _ | print _ _ | block _ | branch _ _ _ _ | whileLoop _ _ _ | give _ _ => True

structure LegibleCode (S : Stmt → Prop) (E : Expr → Prop) : Prop extends Code S E where
  statement : ∀ s, S s → s.Legible
  expression : ∀ e, E e → e.Legible

private theorem isWordPart_not_delimiter {c : Char} (part : Lexer.isWordPart c = true) :
    c ∉ Sexp.delimiters := by
  intro delimiter
  simp only [Sexp.delimiters, List.mem_cons, List.not_mem_nil, or_false] at delimiter
  rcases delimiter with rfl | rfl | rfl | rfl | rfl <;> exact absurd part (by decide)

theorem Name.Legible.proper {name : Name} (h : name.Legible) : name.sexp.Proper := by
  obtain ⟨⟨c, more, same, starts, parts⟩, _⟩ := h
  refine .word (same ▸ List.cons_ne_nil c more) fun d member => isWordPart_not_delimiter ?_
  rw [same] at member
  rcases List.mem_cons.mp member with rfl | inside
  · rw [Lexer.isWordPart, starts, Bool.true_or]
  · exact parts d inside

theorem Literal.Legible.proper {value : Literal} (h : value.Legible) : value.sexp.Proper := by
  cases value with
  | number value =>
      obtain ⟨negative, mantissa, exponent, finite⟩ := h
      refine .word (Number.quoted_text_ne_nil finite) fun c here delimiter => ?_
      simp only [Sexp.delimiters, List.mem_cons, List.not_mem_nil, or_false] at delimiter
      have numeral := Number.mem_quoted_text finite here
      rcases delimiter with rfl | rfl | rfl | rfl | rfl <;> exact absurd numeral (by decide)
  | text content => exact .quoted h
  | boolean value =>
      cases value <;> exact .word (by decide) (by simp [Sexp.delimiters])
  | null => exact .word (by decide) (by simp [Sexp.delimiters])

section

variable {S S' : Stmt → Prop} {E E' : Expr → Prop}

namespace Expr

mutual

theorem proper_sexp (code : LegibleCode S E) : (e : Expr) → E e → e.sexp.Proper
  | literal _ value, h => Literal.Legible.proper (code.expression _ h)
  | lookup _ name, h => Name.Legible.proper (code.expression _ h)
  | assign _ target value, h => by
      have part := List.forall_mem_singleton.mp (code.operands _ h)
      exact Sexp.proper_node (by decide) (forall_mem_pair.mpr
        ⟨Name.Legible.proper (code.expression _ h), proper_sexp code value part⟩)
  | unary _ op operand, h => by
      have part := List.forall_mem_singleton.mp (code.operands _ h)
      exact Sexp.proper_node (Head.unary_mem (code.expression _ h))
        (List.forall_mem_singleton.mpr (proper_sexp code operand part))
  | binary _ op left right, h => by
      have parts := forall_mem_pair.mp (code.operands _ h)
      exact Sexp.proper_node (Head.binary_mem (code.expression _ h)) (forall_mem_pair.mpr
        ⟨proper_sexp code left parts.1, proper_sexp code right parts.2⟩)
  | logical _ op spelling left right, h => by
      have parts := forall_mem_pair.mp (code.operands _ h)
      have legible := code.expression _ h
      exact Sexp.proper_node (Head.joint_mem legible.1 legible.2) (forall_mem_pair.mpr
        ⟨proper_sexp code left parts.1, proper_sexp code right parts.2⟩)
  | call _ _ callee arguments, h => by
      have parts := List.forall_mem_cons.mp (code.operands _ h)
      exact Sexp.proper_node (by decide) (List.forall_mem_cons.mpr
        ⟨proper_sexp code callee parts.1, proper_sexps code arguments parts.2⟩)
  | array _ elements, h =>
      Sexp.proper_node (by decide) (proper_sexps code elements (code.operands _ h))
  | index _ source position, h => by
      have parts := forall_mem_pair.mp (code.operands _ h)
      exact Sexp.proper_node (by decide) (forall_mem_pair.mpr
        ⟨proper_sexp code source parts.1, proper_sexp code position parts.2⟩)

theorem proper_sexps (code : LegibleCode S E) : (es : List Expr) → (∀ e ∈ es, E e) →
    ∀ item ∈ sexps es, item.Proper
  | [], _ => List.forall_mem_nil _
  | e :: rest, each => by
      have each := List.forall_mem_cons.mp each
      exact List.forall_mem_cons.mpr
        ⟨proper_sexp code e each.1, proper_sexps code rest each.2⟩

end

end Expr

namespace Stmt

mutual

theorem proper_sexp (code : LegibleCode S E) : (s : Stmt) → S s → s.sexp.Proper
  | expression value, h =>
      value.proper_sexp code (code.expressions _ h value (List.mem_singleton_self value))
  | print _ value, h | give _ value, h => by
      have part := List.forall_mem_singleton.mp (code.expressions _ h)
      exact Sexp.proper_node (by decide)
        (List.forall_mem_singleton.mpr (value.proper_sexp code part))
  | declare _ name value, h => by
      have part := List.forall_mem_singleton.mp (code.expressions _ h)
      exact Sexp.proper_node (by decide) (forall_mem_pair.mpr
        ⟨Name.Legible.proper (code.statement _ h), value.proper_sexp code part⟩)
  | block ⟨_, body⟩, h =>
      Sexp.proper_node (by decide) (proper_sexps code body (code.closed _ h))
  | branch _ condition ⟨_, body⟩ none, h
  | whileLoop _ condition ⟨_, body⟩, h => by
      have part := List.forall_mem_singleton.mp (code.expressions _ h)
      exact Sexp.proper_node (by decide) (forall_mem_pair.mpr
        ⟨condition.proper_sexp code part,
          Sexp.proper_node (by decide) (proper_sexps code body (code.closed _ h))⟩)
  | branch _ condition ⟨_, body⟩ (some ⟨_, other⟩), h => by
      have part := List.forall_mem_singleton.mp (code.expressions _ h)
      have inner := List.forall_mem_append.mp (code.closed _ h)
      exact Sexp.proper_node (by decide) (List.forall_mem_cons.mpr
        ⟨condition.proper_sexp code part, forall_mem_pair.mpr
          ⟨Sexp.proper_node (by decide) (proper_sexps code body inner.1),
            Sexp.proper_node (by decide) (proper_sexps code other inner.2)⟩⟩)
  | countLoop _ counter first last ⟨_, body⟩, h => by
      have parts := forall_mem_pair.mp (code.expressions _ h)
      exact Sexp.proper_node (by decide) (List.forall_mem_cons.mpr
        ⟨Name.Legible.proper (code.statement _ h), List.forall_mem_cons.mpr
          ⟨first.proper_sexp code parts.1, forall_mem_pair.mpr
            ⟨last.proper_sexp code parts.2,
              Sexp.proper_node (by decide) (proper_sexps code body (code.closed _ h))⟩⟩⟩)
  | function _ name parameters body, h => by
      have names := code.statement _ h
      have each : ∀ item ∈ parameters.map Name.sexp, item.Proper :=
        List.forall_mem_map.mpr fun parameter member => (names.2 parameter member).proper
      exact Sexp.proper_node (by decide) (List.forall_mem_cons.mpr
        ⟨names.1.proper, List.forall_mem_cons.mpr
          ⟨.list each, proper_sexps code body (code.closed _ h)⟩⟩)

theorem proper_sexps (code : LegibleCode S E) : (ss : List Stmt) → (∀ s ∈ ss, S s) →
    ∀ item ∈ sexps ss, item.Proper
  | [], _ => List.forall_mem_nil _
  | s :: rest, each => by
      have each := List.forall_mem_cons.mp each
      exact List.forall_mem_cons.mpr
        ⟨proper_sexp code s each.1, proper_sexps code rest each.2⟩

end

end Stmt

/-! ## Telling trees apart -/

private theorem startsWord_not_numeral {c : Char} (starts : Lexer.startsWord c = true) :
    ¬ (c.isDigit = true ∨ c = '.' ∨ c = '-') := by
  rintro (digit | rfl | rfl)
  · have isDigit : Lexer.isDigit c = c.isDigit := rfl
    rw [← isDigit, Lexer.isDigit_of_startsWord starts] at digit
    exact Bool.false_ne_true digit
  · exact absurd starts (by decide)
  · exact absurd starts (by decide)

theorem Literal.number_ne_word {value : Float} (h : (Literal.number value).Legible) {c : Char}
    (starts : Lexer.startsWord c = true) (more : List Char) :
    (Literal.number value).sexp ≠ .word (c :: more) := by
  obtain ⟨negative, mantissa, exponent, finite⟩ := h
  intro same
  refine startsWord_not_numeral starts (Number.mem_quoted_text finite ?_)
  rw [Sexp.word.inj same]
  exact List.mem_cons_self

/-- Names are not numbers, and not the words for truth values and for nothing. -/
theorem Literal.sexp_ne_name {value : Literal} {name : Name} (h : value.Legible)
    (h' : name.Legible) : value.sexp ≠ name.sexp := by
  obtain ⟨⟨c, more, same, starts, _⟩, free⟩ := h'
  have apart : ∀ keyword : Keyword, ∀ word ∈ keyword.spellings,
      Sexp.word word.toList ≠ name.sexp := by
    intro keyword word member listed
    refine free keyword ⟨word, member, ?_⟩
    rw [Sexp.word.inj listed]
  cases value with
  | number value =>
      rw [Name.sexp, same]
      exact number_ne_word h starts more
  | text content => exact Sexp.noConfusion
  | boolean value =>
      cases value with
      | true => exact apart .vrai "true" (by decide)
      | false => exact apart .faux "false" (by decide)
  | null => exact apart .nul "null" (by decide)

theorem Literal.sexp_inj {value value' : Literal} (h : value.Legible) (h' : value'.Legible)
    (same : value.sexp = value'.sexp) : value = value' := by
  cases value with
  | number x =>
      cases value' with
      | number y =>
          obtain ⟨_, _, _, finite⟩ := h
          obtain ⟨_, _, _, finite'⟩ := h'
          have texts := String.toList_inj.mp (Sexp.word.inj same)
          rw [Number.quoted_text_inj finite finite' texts]
      | text => cases same
      | boolean b => cases b <;> exact absurd same (number_ne_word h (by decide) _)
      | null => exact absurd same (number_ne_word h (by decide) _)
  | text content =>
      cases value' with
      | text content' => rw [String.toList_inj.mp (Sexp.quoted.inj same)]
      | boolean b => cases b <;> cases same
      | number | null => cases same
  | boolean b =>
      cases value' with
      | number y => cases b <;> exact absurd same.symm (number_ne_word h' (by decide) _)
      | text => cases b <;> cases same
      | boolean b' => cases b <;> cases b' <;> simp [sexp] at same ⊢
      | null => cases b <;> simp [sexp] at same
  | null =>
      cases value' with
      | number y => exact absurd same.symm (number_ne_word h' (by decide) _)
      | text => cases same
      | boolean b => cases b <;> simp [sexp] at same
      | null => rfl

theorem Name.sexp_inj {name name' : Name} (same : name.sexp = name'.sexp) :
    name.text = name'.text :=
  String.toList_inj.mp (Sexp.word.inj same)

private theorem Name.blur_eq_of_sexps {names names' : List Name}
    (same : names.map Name.sexp = names'.map Name.sexp) (w : String → String) :
    names.map (Name.blur (.unplaced w)) = names'.map (Name.blur (.unplaced w)) := by
  induction names generalizing names' with
  | nil =>
      cases names' with
      | nil => rfl
      | cons => cases same
  | cons name rest ih =>
      cases names' with
      | nil => cases same
      | cons name' rest' =>
          have same := List.cons.inj same
          rw [List.map_cons, List.map_cons, ih same.2, Name.blur, Name.sexp_inj same.1]
          rfl

theorem Kind.ne_equal_of_isBinary {op : Kind} (h : op.isBinary = true) : op ≠ .symbol .equal := by
  rintro rfl
  cases h

namespace Expr

def node? : Expr → Option (Head × List Sexp)
  | literal _ _ | lookup _ _ => none
  | assign _ target value => some (.sign (.symbol .equal), [target.sexp, value.sexp])
  | unary _ op operand => some (.sign op, [operand.sexp])
  | binary _ op left right => some (.sign op, [left.sexp, right.sexp])
  | logical _ op spelling left right =>
      some (.joint op spelling.toLower, [left.sexp, right.sexp])
  | call _ _ callee arguments => some (.call, callee.sexp :: sexps arguments)
  | array _ elements => some (.array, sexps elements)
  | index _ source position => some (.index, [source.sexp, position.sexp])

theorem shows_node? {e : Expr} (legible : e.Legible) : e.sexp.Shows e.node? := by
  cases e with
  | literal _ value =>
      cases value with
      | boolean value => cases value <;> exact fun _ _ => Sexp.noConfusion
      | _ => exact fun _ _ => Sexp.noConfusion
  | lookup => exact fun _ _ => Sexp.noConfusion
  | assign | call | array | index => exact ⟨rfl, by decide⟩
  | unary => exact ⟨rfl, Head.unary_mem legible⟩
  | binary => exact ⟨rfl, Head.binary_mem legible⟩
  | logical => exact ⟨rfl, Head.joint_mem legible.1 legible.2⟩

theorem node?_eq (code : LegibleCode S E) (code' : LegibleCode S' E') {e e' : Expr} (h : E e)
    (h' : E' e') (same : e.sexp = e'.sexp) : e.node? = e'.node? :=
  (shows_node? (code.expression e h)).unique (same ▸ shows_node? (code'.expression e' h'))

private theorem not_statement_of_node? {e : Expr} {head : Head} {items : List Sexp}
    (h : e.node? = some (head, items)) : head ∉ Head.statements := by
  cases e <;> cases h <;> simp [Head.statements]

mutual

theorem blur_eq_of_sexp (code : LegibleCode S E) (code' : LegibleCode S' E') :
    (e e' : Expr) → E e → E' e' → e.sexp = e'.sexp →
      e.blur (.unplaced String.toLower) = e'.blur (.unplaced String.toLower)
  | literal _ value, e', h, h', same => by
      have nodes := node?_eq code code' h h' same
      cases e' with
      | literal _ value' =>
          have values := Literal.sexp_inj (code.expression _ h) (code'.expression _ h') same
          rw [blur, blur, values]
          rfl
      | lookup _ name =>
          exact absurd same (Literal.sexp_ne_name (code.expression _ h) (code'.expression _ h'))
      | _ => cases nodes
  | lookup _ name, e', h, h', same => by
      have nodes := node?_eq code code' h h' same
      cases e' with
      | literal _ value =>
          exact absurd same.symm
            (Literal.sexp_ne_name (code'.expression _ h') (code.expression _ h))
      | lookup _ name' => simp [blur, Name.blur, Name.sexp_inj same]
      | _ => cases nodes
  | assign _ target value, e', h, h', same => by
      have nodes := node?_eq code code' h h' same
      cases e' with
      | assign _ target' value' =>
          have part := List.forall_mem_singleton.mp (code.operands _ h)
          have part' := List.forall_mem_singleton.mp (code'.operands _ h')
          simp only [node?, Option.some.injEq, Prod.mk.injEq, List.cons.injEq, true_and,
            and_true] at nodes
          simp [blur, Name.blur, Name.sexp_inj nodes.1,
            blur_eq_of_sexp code code' value value' part part' nodes.2]
      | binary _ op =>
          have other := Kind.ne_equal_of_isBinary (code'.expression _ h')
          simp [node?, other.symm] at nodes
      | unary => simp [node?] at nodes
      | _ => cases nodes
  | unary _ op operand, e', h, h', same => by
      have nodes := node?_eq code code' h h' same
      cases e' with
      | unary _ op' operand' =>
          have part := List.forall_mem_singleton.mp (code.operands _ h)
          have part' := List.forall_mem_singleton.mp (code'.operands _ h')
          simp only [node?, Option.some.injEq, Prod.mk.injEq, Head.sign.injEq, List.cons.injEq,
            and_true] at nodes
          simp [blur, nodes.1,
            blur_eq_of_sexp code code' operand operand' part part' nodes.2]
      | assign | binary => simp [node?] at nodes
      | _ => cases nodes
  | binary _ op left right, e', h, h', same => by
      have nodes := node?_eq code code' h h' same
      cases e' with
      | binary _ op' left' right' =>
          have parts := forall_mem_pair.mp (code.operands _ h)
          have parts' := forall_mem_pair.mp (code'.operands _ h')
          simp only [node?, Option.some.injEq, Prod.mk.injEq, Head.sign.injEq, List.cons.injEq,
            and_true] at nodes
          simp [blur, nodes.1,
            blur_eq_of_sexp code code' left left' parts.1 parts'.1 nodes.2.1,
            blur_eq_of_sexp code code' right right' parts.2 parts'.2 nodes.2.2]
      | assign =>
          have other := Kind.ne_equal_of_isBinary (code.expression _ h)
          simp [node?, other] at nodes
      | unary => simp [node?] at nodes
      | _ => cases nodes
  | logical _ op spelling left right, e', h, h', same => by
      have nodes := node?_eq code code' h h' same
      cases e' with
      | logical _ op' spelling' left' right' =>
          have parts := forall_mem_pair.mp (code.operands _ h)
          have parts' := forall_mem_pair.mp (code'.operands _ h')
          simp only [node?, Option.some.injEq, Prod.mk.injEq, Head.joint.injEq, List.cons.injEq,
            and_true] at nodes
          simp [blur, nodes.1,
            blur_eq_of_sexp code code' left left' parts.1 parts'.1 nodes.2.1,
            blur_eq_of_sexp code code' right right' parts.2 parts'.2 nodes.2.2]
      | _ => cases nodes
  | call _ _ callee arguments, e', h, h', same => by
      have nodes := node?_eq code code' h h' same
      cases e' with
      | call _ _ callee' arguments' =>
          have parts := List.forall_mem_cons.mp (code.operands _ h)
          have parts' := List.forall_mem_cons.mp (code'.operands _ h')
          simp only [node?, Option.some.injEq, Prod.mk.injEq, List.cons.injEq, true_and] at nodes
          simp [blur, blur_eq_of_sexp code code' callee callee' parts.1 parts'.1 nodes.1,
            blurAll_eq_of_sexps code code' arguments arguments' parts.2 parts'.2 nodes.2]
      | _ => cases nodes
  | array _ elements, e', h, h', same => by
      have nodes := node?_eq code code' h h' same
      cases e' with
      | array _ elements' =>
          simp only [node?, Option.some.injEq, Prod.mk.injEq, true_and] at nodes
          simp [blur, blurAll_eq_of_sexps code code' elements elements' (code.operands _ h)
            (code'.operands _ h') nodes]
      | _ => cases nodes
  | index _ source position, e', h, h', same => by
      have nodes := node?_eq code code' h h' same
      cases e' with
      | index _ source' position' =>
          have parts := forall_mem_pair.mp (code.operands _ h)
          have parts' := forall_mem_pair.mp (code'.operands _ h')
          simp only [node?, Option.some.injEq, Prod.mk.injEq, List.cons.injEq, true_and,
            and_true] at nodes
          simp [blur, blur_eq_of_sexp code code' source source' parts.1 parts'.1 nodes.1,
            blur_eq_of_sexp code code' position position' parts.2 parts'.2 nodes.2]
      | _ => cases nodes

theorem blurAll_eq_of_sexps (code : LegibleCode S E) (code' : LegibleCode S' E') :
    (es es' : List Expr) → (∀ e ∈ es, E e) → (∀ e ∈ es', E' e) → sexps es = sexps es' →
      blurAll (.unplaced String.toLower) es = blurAll (.unplaced String.toLower) es'
  | [], es', _, _, same => by
      cases es' with
      | nil => rfl
      | cons => cases same
  | e :: rest, es', each, each', same => by
      cases es' with
      | nil => cases same
      | cons e' rest' =>
          have each := List.forall_mem_cons.mp each
          have each' := List.forall_mem_cons.mp each'
          have same := List.cons.inj same
          rw [blurAll, blurAll, blur_eq_of_sexp code code' e e' each.1 each'.1 same.1,
            blurAll_eq_of_sexps code code' rest rest' each.2 each'.2 same.2]

end

end Expr

namespace Stmt

def node? : Stmt → Option (Head × List Sexp)
  | expression value => value.node?
  | print _ value => some (.print, [value.sexp])
  | declare _ name value => some (.declare, [name.sexp, value.sexp])
  | block ⟨_, body⟩ => some (.block, sexps body)
  | branch _ condition ⟨_, body⟩ none =>
      some (.branch, [condition.sexp, .node .block (sexps body)])
  | branch _ condition ⟨_, body⟩ (some ⟨_, other⟩) =>
      some (.branch, [condition.sexp, .node .block (sexps body), .node .block (sexps other)])
  | whileLoop _ condition ⟨_, body⟩ =>
      some (.whileLoop, [condition.sexp, .node .block (sexps body)])
  | countLoop _ counter first last ⟨_, body⟩ =>
      some (.countLoop, [counter.sexp, first.sexp, last.sexp, .node .block (sexps body)])
  | function _ name parameters body =>
      some (.function, name.sexp :: .list (parameters.map Name.sexp) :: sexps body)
  | give _ value => some (.give, [value.sexp])

theorem shows_node? (code : LegibleCode S E) {s : Stmt} (here : S s) : s.sexp.Shows s.node? := by
  cases s with
  | expression value =>
      exact Expr.shows_node?
        (code.expression _ (code.expressions _ here value (List.mem_singleton_self value)))
  | branch _ _ _ other => cases other <;> exact ⟨rfl, by decide⟩
  | _ => exact ⟨rfl, by decide⟩

theorem node?_eq (code : LegibleCode S E) (code' : LegibleCode S' E') {s s' : Stmt} (here : S s)
    (here' : S' s') (same : s.sexp = s'.sexp) : s.node? = s'.node? :=
  (shows_node? code here).unique (same ▸ shows_node? code' here')

theorem expression_ne {value : Expr} {head : Head} {items : List Sexp}
    (known : head ∈ Head.statements) : (Stmt.expression value).node? ≠ some (head, items) :=
  fun node => Expr.not_statement_of_node? node known

theorem sexps_eq_of_block {ss ss' : List Stmt}
    (same : Sexp.node .block (sexps ss) = .node .block (sexps ss')) : sexps ss = sexps ss' :=
  (Sexp.node_inj (by decide) (by decide) same).2

mutual

theorem blur_eq_of_sexp (code : LegibleCode S E) (code' : LegibleCode S' E') :
    (s s' : Stmt) → S s → S' s' → s.sexp = s'.sexp →
      s.blur (.unplaced String.toLower) = s'.blur (.unplaced String.toLower)
  | expression value, s', h, h', same => by
      have nodes := node?_eq code code' h h' same
      cases s' with
      | expression value' =>
          have part := List.forall_mem_singleton.mp (code.expressions _ h)
          have part' := List.forall_mem_singleton.mp (code'.expressions _ h')
          rw [blur, blur, Expr.blur_eq_of_sexp code code' value value' part part' same]
      | branch _ _ _ other => cases other <;> exact absurd nodes (expression_ne (by decide))
      | _ => exact absurd nodes (expression_ne (by decide))
  | print _ value, s', h, h', same => by
      have nodes := node?_eq code code' h h' same
      cases s' with
      | print _ value' =>
          have part := List.forall_mem_singleton.mp (code.expressions _ h)
          have part' := List.forall_mem_singleton.mp (code'.expressions _ h')
          simp only [node?, Option.some.injEq, Prod.mk.injEq, List.cons.injEq, true_and,
            and_true] at nodes
          simp [blur, Expr.blur_eq_of_sexp code code' value value' part part' nodes]
      | expression => exact absurd nodes.symm (expression_ne (by decide))
      | branch _ _ _ other => cases other <;> cases nodes
      | _ => cases nodes
  | give _ value, s', h, h', same => by
      have nodes := node?_eq code code' h h' same
      cases s' with
      | give _ value' =>
          have part := List.forall_mem_singleton.mp (code.expressions _ h)
          have part' := List.forall_mem_singleton.mp (code'.expressions _ h')
          simp only [node?, Option.some.injEq, Prod.mk.injEq, List.cons.injEq, true_and,
            and_true] at nodes
          simp [blur, Expr.blur_eq_of_sexp code code' value value' part part' nodes]
      | expression => exact absurd nodes.symm (expression_ne (by decide))
      | branch _ _ _ other => cases other <;> cases nodes
      | _ => cases nodes
  | declare _ name value, s', h, h', same => by
      have nodes := node?_eq code code' h h' same
      cases s' with
      | declare _ name' value' =>
          have part := List.forall_mem_singleton.mp (code.expressions _ h)
          have part' := List.forall_mem_singleton.mp (code'.expressions _ h')
          simp only [node?, Option.some.injEq, Prod.mk.injEq, List.cons.injEq, true_and,
            and_true] at nodes
          simp [blur, Name.blur, Name.sexp_inj nodes.1,
            Expr.blur_eq_of_sexp code code' value value' part part' nodes.2]
      | expression => exact absurd nodes.symm (expression_ne (by decide))
      | branch _ _ _ other => cases other <;> cases nodes
      | _ => cases nodes
  | block ⟨_, body⟩, s', h, h', same => by
      have nodes := node?_eq code code' h h' same
      cases s' with
      | block inner =>
          obtain ⟨_, body'⟩ := inner
          simp only [node?, Option.some.injEq, Prod.mk.injEq, true_and] at nodes
          simp [blur, blurAll_eq_of_sexps code code' body body' (code.closed _ h)
            (code'.closed _ h') nodes]
      | expression => exact absurd nodes.symm (expression_ne (by decide))
      | branch _ _ _ other => cases other <;> cases nodes
      | _ => cases nodes
  | branch _ condition ⟨_, body⟩ none, s', h, h', same => by
      have nodes := node?_eq code code' h h' same
      cases s' with
      | branch _ condition' inner other' =>
          obtain ⟨_, body'⟩ := inner
          cases other' with
          | some other' => simp [node?] at nodes
          | none =>
              have part := List.forall_mem_singleton.mp (code.expressions _ h)
              have part' := List.forall_mem_singleton.mp (code'.expressions _ h')
              simp only [node?, Option.some.injEq, Prod.mk.injEq, List.cons.injEq, true_and,
                and_true] at nodes
              simp [blur, Expr.blur_eq_of_sexp code code' condition condition' part part' nodes.1,
                blurAll_eq_of_sexps code code' body body' (code.closed _ h) (code'.closed _ h')
                  (sexps_eq_of_block nodes.2)]
      | expression => exact absurd nodes.symm (expression_ne (by decide))
      | _ => cases nodes
  | branch _ condition ⟨_, body⟩ (some ⟨_, other⟩), s', h, h', same => by
      have nodes := node?_eq code code' h h' same
      cases s' with
      | branch _ condition' inner other' =>
          obtain ⟨_, body'⟩ := inner
          cases other' with
          | none => simp [node?] at nodes
          | some inner' =>
              obtain ⟨_, other'⟩ := inner'
              have part := List.forall_mem_singleton.mp (code.expressions _ h)
              have part' := List.forall_mem_singleton.mp (code'.expressions _ h')
              have inside := List.forall_mem_append.mp (code.closed _ h)
              have inside' := List.forall_mem_append.mp (code'.closed _ h')
              simp only [node?, Option.some.injEq, Prod.mk.injEq, List.cons.injEq, true_and,
                and_true] at nodes
              simp [blur, Expr.blur_eq_of_sexp code code' condition condition' part part' nodes.1,
                blurAll_eq_of_sexps code code' body body' inside.1 inside'.1
                  (sexps_eq_of_block nodes.2.1),
                blurAll_eq_of_sexps code code' other other' inside.2 inside'.2
                  (sexps_eq_of_block nodes.2.2)]
      | expression => exact absurd nodes.symm (expression_ne (by decide))
      | _ => cases nodes
  | whileLoop _ condition ⟨_, body⟩, s', h, h', same => by
      have nodes := node?_eq code code' h h' same
      cases s' with
      | whileLoop _ condition' inner =>
          obtain ⟨_, body'⟩ := inner
          have part := List.forall_mem_singleton.mp (code.expressions _ h)
          have part' := List.forall_mem_singleton.mp (code'.expressions _ h')
          simp only [node?, Option.some.injEq, Prod.mk.injEq, List.cons.injEq, true_and,
            and_true] at nodes
          simp [blur, Expr.blur_eq_of_sexp code code' condition condition' part part' nodes.1,
            blurAll_eq_of_sexps code code' body body' (code.closed _ h) (code'.closed _ h')
              (sexps_eq_of_block nodes.2)]
      | expression => exact absurd nodes.symm (expression_ne (by decide))
      | branch _ _ _ other => cases other <;> cases nodes
      | _ => cases nodes
  | countLoop _ counter first last ⟨_, body⟩, s', h, h', same => by
      have nodes := node?_eq code code' h h' same
      cases s' with
      | countLoop _ counter' first' last' inner =>
          obtain ⟨_, body'⟩ := inner
          have parts := forall_mem_pair.mp (code.expressions _ h)
          have parts' := forall_mem_pair.mp (code'.expressions _ h')
          simp only [node?, Option.some.injEq, Prod.mk.injEq, List.cons.injEq, true_and,
            and_true] at nodes
          simp [blur, Name.blur, Name.sexp_inj nodes.1,
            Expr.blur_eq_of_sexp code code' first first' parts.1 parts'.1 nodes.2.1,
            Expr.blur_eq_of_sexp code code' last last' parts.2 parts'.2 nodes.2.2.1,
            blurAll_eq_of_sexps code code' body body' (code.closed _ h) (code'.closed _ h')
              (sexps_eq_of_block nodes.2.2.2)]
      | expression => exact absurd nodes.symm (expression_ne (by decide))
      | branch _ _ _ other => cases other <;> cases nodes
      | _ => cases nodes
  | function _ name parameters body, s', h, h', same => by
      have nodes := node?_eq code code' h h' same
      cases s' with
      | function _ name' parameters' body' =>
          simp only [node?, Option.some.injEq, Prod.mk.injEq, List.cons.injEq, Sexp.list.injEq,
            true_and] at nodes
          simp [blur, Name.blur, Name.sexp_inj nodes.1, Name.blur_eq_of_sexps nodes.2.1,
            blurAll_eq_of_sexps code code' body body' (code.closed _ h) (code'.closed _ h')
              nodes.2.2]
      | expression => exact absurd nodes.symm (expression_ne (by decide))
      | branch _ _ _ other => cases other <;> cases nodes
      | _ => cases nodes

theorem blurAll_eq_of_sexps (code : LegibleCode S E) (code' : LegibleCode S' E') :
    (ss ss' : List Stmt) → (∀ s ∈ ss, S s) → (∀ s ∈ ss', S' s) → sexps ss = sexps ss' →
      blurAll (.unplaced String.toLower) ss = blurAll (.unplaced String.toLower) ss'
  | [], ss', _, _, same => by
      cases ss' with
      | nil => rfl
      | cons => cases same
  | s :: rest, ss', each, each', same => by
      cases ss' with
      | nil => cases same
      | cons s' rest' =>
          have each := List.forall_mem_cons.mp each
          have each' := List.forall_mem_cons.mp each'
          have same := List.cons.inj same
          rw [blurAll, blurAll, blur_eq_of_sexp code code' s s' each.1 each'.1 same.1,
            blurAll_eq_of_sexps code code' rest rest' each.2 each'.2 same.2]

end

end Stmt

end

end Ardoise
