import Ardoise.Parser
import Ardoise.Proofs.Blur

/-!
# Only the kinds of the tokens count

Two lists of tokens of the same kinds may be written differently and stand at
different places.  Parsing takes the same way through both: it gives values that
look the same through a view that forgets spans, or stops for want of the same
thing.  What is kept of the spelling of operators is up to a function `w`: as
much as the two lists of tokens have in common.  `Parser.agrees_program` says so
of whole programs, by way of one lemma per rule of the grammar.
-/

namespace Ardoise

/-- What parsing can make of a token, where it only sees the spelling through `w`. -/
def Token.view (w : String → String) (token : Token) : Kind × String :=
  (token.kind, w token.lexeme)

structure Cursor.Alike (w : String → String) (c d : Cursor) : Prop where
  tokens : c.tokens.map (Token.view w) = d.tokens.map (Token.view w)
  nesting : c.nesting = d.nesting

structure Setting.Alike (w : String → String) (s t : Setting) : Prop where
  limit : s.limit = t.limit
  final : s.final.view w = t.final.view w

inductive Reply.Alike {α γ : Type} (w : String → String) (view : α → γ) :
    Reply α → Reply α → Prop
  | parsed {a b : α} {c d : Cursor} (values : view a = view b) (cursors : c.Alike w d) :
      Alike w view (.parsed a c) (.parsed b d)
  | refused {f g : Located GrammarFault} (c d : Cursor)
      (expected : f.fault.expected = g.fault.expected) : Alike w view (.refused f c) (.refused g d)
  | exhausted : Alike w view .exhausted .exhausted

variable {w : String → String}

theorem Token.kind_eq_of_view {a b : Token} (same : a.view w = b.view w) : a.kind = b.kind :=
  congrArg Prod.fst same

theorem GrammarFault.ofLexeme_expected (lexeme : String) (expected : Expected) :
    (GrammarFault.ofLexeme lexeme expected).expected = expected := by
  unfold GrammarFault.ofLexeme
  split <;> rfl

private theorem Operator.blur_join (op : Operator) {token token' : Token}
    {left left' right right' : Expr} (tokens : token.view w = token'.view w)
    (same : left.blur (.unplaced w) = left'.blur (.unplaced w))
    (same' : right.blur (.unplaced w) = right'.blur (.unplaced w)) :
    (op.join token left right).blur (.unplaced w) =
      (op.join token' left' right').blur (.unplaced w) := by
  have kinds : token.kind = token'.kind := congrArg Prod.fst tokens
  have spellings : w token.lexeme = w token'.lexeme := congrArg Prod.snd tokens
  cases op <;> simp [Operator.join, Expr.blur, same, same', kinds, spellings]

theorem Expr.blur_eq_blur_lookup {span : Span} {target : Name} {e : Expr}
    (same : (Expr.lookup span target).blur (.unplaced w) = e.blur (.unplaced w)) :
    ∃ span' target', e = .lookup span' target' ∧
      target.blur (.unplaced w) = target'.blur (.unplaced w) := by
  cases e with
  | lookup span' target' =>
      simp only [Expr.blur, Expr.lookup.injEq] at same
      exact ⟨span', target', rfl, same.2⟩
  | _ => simp [Expr.blur] at same

namespace Parser

variable {α β γ δ : Type} {view : α → γ} {look : β → δ}

def Agrees (w : String → String) (view : α → γ) (p q : Parser α) : Prop :=
  ∀ s t c d, s.Alike w t → c.Alike w d → (p s c).Alike w view (q t d)

theorem agrees_pure {a b : α} (values : view a = view b) :
    Agrees w view (pure a : Parser α) (pure b) :=
  fun _ _ _ _ _ cursors => .parsed values cursors

theorem Agrees.bind {p q : Parser α} {f g : α → Parser β} (first : Agrees w view p q)
    (second : ∀ {a b}, view a = view b → Agrees w look (f a) (g b)) :
    Agrees w look (p >>= f) (q >>= g) := by
  intro s t c d settings cursors
  change (Parser.bind p f s c).Alike w look (Parser.bind q g t d)
  unfold Parser.bind
  have replies := first s t c d settings cursors
  generalize p s c = x at replies
  generalize q t d = y at replies
  cases replies with
  | parsed values cursors' => exact second values s t _ _ settings cursors'
  | refused c d expected => exact .refused c d expected
  | exhausted => exact .exhausted

theorem agrees_exhausted : Agrees w view (exhausted : Parser α) exhausted :=
  fun _ _ _ _ _ _ => .exhausted

theorem agrees_peek : Agrees w Token.kind peek peek := by
  intro s t c d settings cursors
  refine .parsed ?_ cursors
  have views := cursors.tokens
  cases left : c.tokens with
  | nil =>
      cases right : d.tokens with
      | nil => exact congrArg Prod.fst settings.final
      | cons => simp [left, right] at views
  | cons a rest =>
      cases right : d.tokens with
      | nil => simp [left, right] at views
      | cons b rest' =>
          simp only [left, right, List.map_cons, List.cons.injEq] at views
          exact congrArg Prod.fst views.1

theorem agrees_advance : Agrees w (Token.view w) advance advance := by
  intro s t c d settings cursors
  have views := cursors.tokens
  unfold advance
  cases left : c.tokens with
  | nil =>
      cases right : d.tokens with
      | nil => exact .parsed settings.final cursors
      | cons => simp [left, right] at views
  | cons a rest =>
      cases right : d.tokens with
      | nil => simp [left, right] at views
      | cons b rest' =>
          simp only [left, right, List.map_cons, List.cons.injEq] at views
          exact .parsed views.1 ⟨views.2, cursors.nesting⟩

theorem agrees_refuseAt (a b : Token) (expected : Expected) :
    Agrees w view (refuseAt a expected : Parser α) (refuseAt b expected) := by
  intro s t c d _ _
  refine .refused c d ?_
  rw [GrammarFault.ofLexeme_expected, GrammarFault.ofLexeme_expected]

theorem agrees_refuse (expected : Expected) :
    Agrees w view (refuse expected : Parser α) (refuse expected) :=
  agrees_peek.bind fun {a b} _ => agrees_refuseAt a b expected

theorem agrees_deepen : Agrees w (fun _ : Unit => ()) deepen deepen := by
  intro s t c d settings cursors
  unfold deepen
  simp only [cursors.nesting, settings.limit]
  split
  · exact agrees_refuse _ s t _ _ settings ⟨cursors.tokens, rfl⟩
  · exact .parsed rfl ⟨cursors.tokens, rfl⟩

theorem Agrees.nested {p q : Parser α} (h : Agrees w view p q) :
    Agrees w view (nested p) (nested q) := by
  refine agrees_deepen.bind fun _ s t c d settings cursors => ?_
  have replies := h s t c d settings cursors
  generalize p s c = x at replies
  generalize q t d = y at replies
  cases replies with
  | parsed values cursors' => exact .parsed values ⟨cursors'.tokens, by rw [cursors'.nesting]⟩
  | refused _ _ expected => exact .refused _ _ expected
  | exhausted => exact .exhausted

theorem Agrees.balanced {p q : Parser α} (h : Agrees w view p q) :
    Agrees w view (balanced p) (balanced q) := by
  intro s t c d settings cursors
  have replies := h s t c d settings cursors
  unfold Parser.balanced
  generalize p s c = x at replies
  generalize q t d = y at replies
  cases replies with
  | parsed values cursors' => exact .parsed values ⟨cursors'.tokens, cursors.nesting⟩
  | refused _ _ expected => exact .refused _ _ expected
  | exhausted => exact .exhausted

theorem agrees_accept (kind : Kind) : Agrees w id (accept kind) (accept kind) := by
  refine agrees_peek.bind fun {a b} same => ?_
  rw [same]
  split
  · exact agrees_advance.bind fun _ => agrees_pure rfl
  · exact agrees_pure rfl

theorem agrees_expect (kind : Kind) (expected : Expected) :
    Agrees w (Token.view w) (expect kind expected) (expect kind expected) := by
  refine agrees_peek.bind fun {a b} same => ?_
  rw [same]
  split
  · exact agrees_advance
  · exact agrees_refuse expected

theorem agrees_expectName (expected : Expected) :
    Agrees w (Name.blur (.unplaced w)) (expectName expected) (expectName expected) := by
  refine agrees_peek.bind fun {a b} same => ?_
  rw [same]
  split
  · exact agrees_advance.bind fun _ => agrees_pure rfl
  · exact agrees_refuse expected

private theorem agrees_separated {item : Parser α} (h : Agrees w view item item) (allowance : Nat) :
    Agrees w (List.map view) (separated item allowance) (separated item allowance) := by
  induction allowance with
  | zero => exact agrees_exhausted
  | succ allowance ih =>
      refine h.bind fun {a b} first => ?_
      refine (agrees_accept _).bind fun {again again'} same => ?_
      obtain rfl : again = again' := same
      split
      · exact ih.bind fun rest => agrees_pure (by rw [List.map_cons, List.map_cons, first, rest])
      · exact agrees_pure (by rw [List.map_singleton, List.map_singleton, first])

theorem agrees_separatedUntil {item : Parser α} (h : Agrees w view item item) (close : Kind)
    (allowance : Nat) :
    Agrees w (List.map view) (separatedUntil close item allowance)
      (separatedUntil close item allowance) := by
  refine agrees_peek.bind fun {a b} same => ?_
  rw [same]
  split
  · exact agrees_pure rfl
  · exact agrees_separated h allowance

/-! ## Expressions -/

section Expressions

variable {expression operand : Parser Expr}

def viewElements (w : String → String) (elements : List Expr × Token) : List Expr × Kind :=
  (Expr.blurAll (.unplaced w) elements.1, elements.2.kind)

private theorem agrees_afterElement {more : Parser (List Expr × Token)} {first first' : Expr}
    (same : first.blur (.unplaced w) = first'.blur (.unplaced w))
    (h : Agrees w (viewElements w) more more) :
    Agrees w (viewElements w) (afterElement first more) (afterElement first' more) := by
  refine agrees_peek.bind fun {a b} kinds => ?_
  rw [kinds]
  split
  · refine agrees_advance.bind fun {close close'} closed => agrees_pure ?_
    simp [viewElements, Expr.blurAll, same, Token.kind_eq_of_view closed]
  · refine (agrees_expect _ _).bind fun _ => h.bind fun {xs ys} others => agrees_pure ?_
    simp only [viewElements, Prod.mk.injEq] at others
    simp [viewElements, Expr.blurAll, same, others]

private theorem agrees_elements (h : Agrees w (Expr.blur (.unplaced w)) expression expression)
    (allowance : Nat) :
    Agrees w (viewElements w) (elements expression allowance) (elements expression allowance) := by
  induction allowance with
  | zero => exact agrees_exhausted
  | succ allowance ih =>
      refine agrees_peek.bind fun {a b} kinds => ?_
      rw [kinds]
      split
      · refine agrees_advance.bind fun {close close'} closed => agrees_pure ?_
        simp [viewElements, Token.kind_eq_of_view closed]
      · exact h.bind fun same => agrees_afterElement same ih

private theorem agrees_array (h : Agrees w (Expr.blur (.unplaced w)) expression expression)
    (allowance : Nat) :
    Agrees w (Expr.blur (.unplaced w)) (array expression allowance)
      (array expression allowance) := by
  refine agrees_advance.bind fun _ => (agrees_elements h allowance).bind fun {xs ys} same => ?_
  simp only [viewElements, Prod.mk.injEq] at same
  exact agrees_pure (by simp [Expr.blur, same])

theorem agrees_parenthesised (h : Agrees w (Expr.blur (.unplaced w)) expression expression) :
    Agrees w (Expr.blur (.unplaced w)) (parenthesised expression) (parenthesised expression) := by
  refine agrees_advance.bind fun _ => h.bind fun {e e'} same => ?_
  refine (agrees_expect _ _).bind fun _ => agrees_pure ?_
  rw [Expr.blur_widen, Expr.blur_widen, same]
  rfl

private theorem agrees_primary (h : Agrees w (Expr.blur (.unplaced w)) expression expression)
    (allowance : Nat) :
    Agrees w (Expr.blur (.unplaced w)) (primary expression allowance)
      (primary expression allowance) := by
  refine agrees_peek.bind fun {a b} kinds => ?_
  rw [kinds]
  split
  · exact agrees_advance.bind fun _ => agrees_pure rfl
  · exact agrees_advance.bind fun _ => agrees_pure rfl
  · exact agrees_parenthesised h
  · exact agrees_array h allowance
  · exact agrees_refuse _

private theorem agrees_arguments (h : Agrees w (Expr.blur (.unplaced w)) expression expression)
    (allowance : Nat) {callee callee' : Expr}
    (same : callee.blur (.unplaced w) = callee'.blur (.unplaced w)) :
    Agrees w (Expr.blur (.unplaced w)) (arguments expression allowance callee)
      (arguments expression allowance callee') := by
  refine agrees_advance.bind fun _ => ?_
  refine (agrees_separatedUntil h _ allowance).bind fun {xs ys} values => ?_
  refine (agrees_expect _ _).bind fun _ => agrees_pure ?_
  simp [Expr.blur, Expr.blurAll_eq_map, same, values]

private theorem agrees_subscript (h : Agrees w (Expr.blur (.unplaced w)) expression expression)
    {source source' : Expr} (same : source.blur (.unplaced w) = source'.blur (.unplaced w)) :
    Agrees w (Expr.blur (.unplaced w)) (subscript expression source)
      (subscript expression source') := by
  refine agrees_advance.bind fun _ => h.bind fun {e e'} position => ?_
  refine (agrees_expect _ _).bind fun _ => agrees_pure ?_
  simp [Expr.blur, same, position]

private theorem agrees_suffixes (h : Agrees w (Expr.blur (.unplaced w)) expression expression)
    (allowance turns : Nat) {left left' : Expr}
    (same : left.blur (.unplaced w) = left'.blur (.unplaced w)) :
    Agrees w (Expr.blur (.unplaced w)) (suffixes expression allowance turns left)
      (suffixes expression allowance turns left') := by
  induction turns generalizing left left' with
  | zero => exact agrees_exhausted
  | succ turns ih =>
      refine agrees_peek.bind fun {a b} kinds => ?_
      rw [kinds]
      split
      · exact agrees_deepen.bind fun _ => (agrees_arguments h allowance same).bind ih
      · exact agrees_deepen.bind fun _ => (agrees_subscript h same).bind ih
      · exact agrees_pure same

private theorem agrees_postfixed (h : Agrees w (Expr.blur (.unplaced w)) expression expression)
    (allowance : Nat) :
    Agrees w (Expr.blur (.unplaced w)) (postfixed expression allowance)
      (postfixed expression allowance) :=
  Agrees.balanced ((agrees_primary h allowance).bind (agrees_suffixes h allowance allowance))

theorem agrees_prefixed (h : Agrees w (Expr.blur (.unplaced w)) operand operand) (allowance : Nat) :
    Agrees w (Expr.blur (.unplaced w)) (prefixed operand allowance)
      (prefixed operand allowance) := by
  induction allowance with
  | zero => exact agrees_exhausted
  | succ allowance ih =>
      refine agrees_peek.bind fun {a b} kinds => ?_
      rw [kinds]
      split
      · refine agrees_advance.bind fun {token token'} tokens => ?_
        have kinds : token.kind = token'.kind := congrArg Prod.fst tokens
        refine ih.nested.bind fun {e e'} same => agrees_pure ?_
        simp [Expr.blur, same, kinds]
      · exact h

private theorem agrees_operations (precedence : Level)
    (h : Agrees w (Expr.blur (.unplaced w)) operand operand) (allowance : Nat) {left left' : Expr}
    (same : left.blur (.unplaced w) = left'.blur (.unplaced w)) :
    Agrees w (Expr.blur (.unplaced w)) (operations precedence operand allowance left)
      (operations precedence operand allowance left') := by
  induction allowance generalizing left left' with
  | zero => exact agrees_exhausted
  | succ allowance ih =>
      refine agrees_peek.bind fun {a b} kinds => ?_
      rw [kinds]
      split
      · rename_i op _
        refine agrees_deepen.bind fun _ => agrees_advance.bind fun {token token'} tokens => ?_
        exact h.bind fun same' => ih (Operator.blur_join op tokens same same')
      · exact agrees_pure same

theorem agrees_operators (h : Agrees w (Expr.blur (.unplaced w)) operand operand) (allowance : Nat)
    (levels : List Level) :
    Agrees w (Expr.blur (.unplaced w)) (operators operand allowance levels)
      (operators operand allowance levels) := by
  induction levels with
  | nil => exact h
  | cons precedence tighter ih =>
      exact Agrees.balanced (ih.bind (agrees_operations precedence ih allowance))

private theorem agrees_assignment (h : Agrees w (Expr.blur (.unplaced w)) operand operand)
    (allowance : Nat) :
    Agrees w (Expr.blur (.unplaced w)) (assignment operand allowance)
      (assignment operand allowance) := by
  induction allowance with
  | zero => exact agrees_exhausted
  | succ allowance ih =>
      refine h.bind fun {left left'} same => agrees_peek.bind fun {a b} kinds => ?_
      rw [kinds]
      split
      · refine agrees_advance.bind fun {equals equals'} _ => ih.nested.bind fun {v w} value => ?_
        split
        · obtain ⟨span', target', rfl, targets⟩ := Expr.blur_eq_blur_lookup same
          exact agrees_pure (by simp [Expr.blur, value, targets])
        · rename_i other
          split
          · obtain ⟨span', target', rfl, _⟩ := Expr.blur_eq_blur_lookup same.symm
            exact absurd rfl (other span' target')
          · exact agrees_refuseAt equals equals' _
      · exact agrees_pure same

theorem agrees_operand (h : Agrees w (Expr.blur (.unplaced w)) expression expression)
    (allowance : Nat) :
    Agrees w (Expr.blur (.unplaced w)) (Parser.operand expression allowance)
      (Parser.operand expression allowance) :=
  agrees_prefixed (agrees_postfixed h allowance) allowance

end Expressions

theorem agrees_expression (allowance : Nat) :
    Agrees w (Expr.blur (.unplaced w)) (expression allowance) (expression allowance) := by
  induction allowance with
  | zero => exact agrees_exhausted
  | succ allowance ih =>
      have operands := agrees_operand ih (allowance + 1)
      exact (agrees_assignment (agrees_operators operands (allowance + 1) _) (allowance + 1)).nested

private theorem agrees_bound (allowance : Nat) :
    Agrees w (Expr.blur (.unplaced w)) (bound allowance) (bound allowance) :=
  agrees_operators (agrees_operand (agrees_expression allowance) (allowance + 1)) (allowance + 1) _

/-! ## Statements -/

def viewBlock (w : String → String) (block : Block Stmt × Token) : List Stmt × Kind :=
  (Stmt.blurAll (.unplaced w) block.1.body, block.2.kind)

theorem agrees_statements {statement : Parser Stmt}
    (h : Agrees w (Stmt.blur (.unplaced w)) statement statement) (closers : List Kind)
    (allowance : Nat) :
    Agrees w (Stmt.blurAll (.unplaced w)) (statements statement closers allowance)
      (statements statement closers allowance) := by
  induction allowance with
  | zero => exact agrees_exhausted
  | succ allowance ih =>
      refine agrees_peek.bind fun {a b} kinds => ?_
      rw [kinds]
      split
      · exact agrees_pure rfl
      · refine h.bind fun {s t} first => ih.bind fun {ss ts} rest => agrees_pure ?_
        rw [Stmt.blurAll, Stmt.blurAll, first, rest]

private theorem agrees_block {body : Parser (List Stmt)}
    (h : Agrees w (Stmt.blurAll (.unplaced w)) body body)
    (closers : List Kind) (expected : Expected) :
    Agrees w (viewBlock w) (block body closers expected) (block body closers expected) := by
  refine agrees_peek.bind fun _ => h.nested.bind fun {ss ts} same => ?_
  refine agrees_peek.bind fun {a b} kinds => ?_
  rw [kinds]
  split
  · refine agrees_advance.bind fun {close close'} closed => agrees_pure ?_
    simp [viewBlock, same, Token.kind_eq_of_view closed]
  · exact agrees_refuse expected

section Statements

variable {expression bound : Parser Expr} {body otherwise : Parser (Block Stmt × Token)}

private theorem agrees_functionRule {parameters : Parser (List Name)}
    (h : Agrees w (List.map (Name.blur (.unplaced w))) parameters parameters)
    (bodies : Agrees w (viewBlock w) body body) :
    Agrees w (Stmt.blur (.unplaced w)) (functionRule parameters body)
      (functionRule parameters body) := by
  refine agrees_advance.bind fun _ => (agrees_expectName _).bind fun {n n'} name => ?_
  refine (agrees_expect _ _).bind fun _ => h.bind fun {xs ys} same => ?_
  refine (agrees_expect _ _).bind fun _ => bodies.bind fun {x y} blocks => agrees_pure ?_
  simp only [viewBlock, Prod.mk.injEq] at blocks
  simp [Stmt.blur, name, same, blocks]

private theorem agrees_giveRule (inFunction : Bool)
    (h : Agrees w (Expr.blur (.unplaced w)) expression expression) :
    Agrees w (Stmt.blur (.unplaced w)) (giveRule inFunction expression)
      (giveRule inFunction expression) := by
  unfold giveRule
  split
  · refine agrees_advance.bind fun _ => h.bind fun {e e'} same => agrees_pure ?_
    simp [Stmt.blur, same]
  · exact agrees_refuse _

private theorem agrees_declareRule (h : Agrees w (Expr.blur (.unplaced w)) expression expression) :
    Agrees w (Stmt.blur (.unplaced w)) (declareRule expression) (declareRule expression) := by
  refine agrees_advance.bind fun _ => (agrees_expectName _).bind fun {n n'} name => ?_
  refine (agrees_expect _ _).bind fun _ => h.bind fun {e e'} same => agrees_pure ?_
  simp [Stmt.blur, name, same]

private theorem agrees_branchRule (h : Agrees w (Expr.blur (.unplaced w)) expression expression)
    (bodies : Agrees w (viewBlock w) body body)
    (others : Agrees w (viewBlock w) otherwise otherwise) :
    Agrees w (Stmt.blur (.unplaced w)) (branchRule expression body otherwise)
      (branchRule expression body otherwise) := by
  refine agrees_advance.bind fun _ => h.bind fun {e e'} same => ?_
  refine (agrees_expect _ _).bind fun _ => bodies.bind fun {x y} blocks => ?_
  simp only [viewBlock, Prod.mk.injEq] at blocks
  dsimp only
  rw [blocks.2]
  split
  · refine others.bind fun {z w} alternatives => agrees_pure ?_
    simp only [viewBlock, Prod.mk.injEq] at alternatives
    simp [Stmt.blur, same, blocks, alternatives]
  · exact agrees_pure (by simp [Stmt.blur, same, blocks])

private theorem agrees_whileRule (h : Agrees w (Expr.blur (.unplaced w)) expression expression)
    (bodies : Agrees w (viewBlock w) body body) :
    Agrees w (Stmt.blur (.unplaced w)) (whileRule expression body) (whileRule expression body) := by
  refine agrees_advance.bind fun _ => h.bind fun {e e'} same => ?_
  refine (agrees_expect _ _).bind fun _ => bodies.bind fun {x y} blocks => agrees_pure ?_
  simp only [viewBlock, Prod.mk.injEq] at blocks
  simp [Stmt.blur, same, blocks]

private theorem agrees_countRule (h : Agrees w (Expr.blur (.unplaced w)) bound bound)
    (bodies : Agrees w (viewBlock w) body body) :
    Agrees w (Stmt.blur (.unplaced w)) (countRule bound body) (countRule bound body) := by
  refine agrees_advance.bind fun _ => (agrees_expectName _).bind fun {n n'} counter => ?_
  refine (agrees_expect _ _).bind fun _ => h.bind fun {e e'} first => ?_
  refine (agrees_expect _ _).bind fun _ => h.bind fun {f f'} last => ?_
  refine (agrees_accept _).bind fun _ => bodies.bind fun {x y} blocks => agrees_pure ?_
  simp only [viewBlock, Prod.mk.injEq] at blocks
  simp [Stmt.blur, counter, first, last, blocks]

private theorem agrees_printRule (h : Agrees w (Expr.blur (.unplaced w)) expression expression) :
    Agrees w (Stmt.blur (.unplaced w)) (printRule expression) (printRule expression) := by
  refine agrees_advance.bind fun _ => h.bind fun {e e'} same => agrees_pure ?_
  simp [Stmt.blur, same]

private theorem agrees_blockRule (bodies : Agrees w (viewBlock w) body body) :
    Agrees w (Stmt.blur (.unplaced w)) (blockRule body) (blockRule body) := by
  refine agrees_advance.bind fun _ => bodies.bind fun {x y} blocks => agrees_pure ?_
  simp only [viewBlock, Prod.mk.injEq] at blocks
  simp [Stmt.blur, blocks]

end Statements

private theorem agrees_statement (allowance : Nat) (inFunction : Bool) :
    Agrees w (Stmt.blur (.unplaced w)) (statement allowance inFunction)
      (statement allowance inFunction) := by
  induction allowance generalizing inFunction with
  | zero => exact agrees_exhausted
  | succ allowance ih =>
      have expressions : Agrees w (Expr.blur (.unplaced w)) (expression (allowance + 1))
          (expression (allowance + 1)) := agrees_expression (allowance + 1)
      have bodies : ∀ inside closers expected, Agrees w (viewBlock w)
          (block (statements (statement allowance inside) closers (allowance + 1)) closers expected)
          (block (statements (statement allowance inside) closers (allowance + 1)) closers
            expected) :=
        fun inside closers expected =>
          agrees_block (agrees_statements (ih inside) closers (allowance + 1)) closers expected
      refine agrees_peek.bind fun {a b} kinds => ?_
      rw [kinds]
      split
      · exact agrees_functionRule (agrees_separatedUntil (agrees_expectName _) _ _) (bodies _ _ _)
      · exact agrees_giveRule inFunction expressions
      · exact agrees_declareRule expressions
      · exact agrees_branchRule expressions (bodies _ _ _) (bodies _ _ _)
      · exact agrees_whileRule expressions (bodies _ _ _)
      · exact agrees_countRule (agrees_bound _) (bodies _ _ _)
      · exact agrees_printRule expressions
      · exact agrees_blockRule (bodies _ _ _)
      · refine expressions.bind fun {e e'} same => agrees_pure ?_
        simp [Stmt.blur, same]

private theorem agrees_program (allowance : Nat) :
    Agrees w (Stmt.blurAll (.unplaced w)) (program allowance) (program allowance) :=
  agrees_statements (agrees_statement allowance false) [] allowance

end Parser

private theorem Parser.finalToken_view {tokens tokens' : List Token}
    (views : tokens.map (Token.view w) = tokens'.map (Token.view w)) :
    (Parser.finalToken tokens).view w = (Parser.finalToken tokens').view w := by
  have last : tokens.getLast?.map (Token.view w) = tokens'.getLast?.map (Token.view w) := by
    rw [← List.getLast?_map, ← List.getLast?_map, views]
  unfold Parser.finalToken
  cases left : tokens.getLast? with
  | none =>
      cases right : tokens'.getLast? with
      | none => rfl
      | some b => simp [left, right] at last
  | some a =>
      cases right : tokens'.getLast? with
      | none => simp [left, right] at last
      | some b =>
          simp only [left, right, Option.map_some, Option.some.injEq] at last
          simp only [Token.kind_eq_of_view last]
          split
          · exact last
          · rfl

/-- The two ways in which parsing texts that look the same can end. -/
theorem parse_alike (limit : Nat) {tokens tokens' : List Token}
    (views : tokens.map (Token.view w) = tokens'.map (Token.view w)) :
    (∃ fault fault', parse limit tokens = .error fault ∧ parse limit tokens' = .error fault' ∧
      fault.fault.expected = fault'.fault.expected) ∨
    ∃ program program', parse limit tokens = .ok program ∧ parse limit tokens' = .ok program' ∧
      Stmt.blurAll (.unplaced w) program = Stmt.blurAll (.unplaced w) program' := by
  have length : tokens.length = tokens'.length := by simpa using congrArg List.length views
  have settings : Setting.Alike w ⟨limit, Parser.finalToken tokens⟩
      ⟨limit, Parser.finalToken tokens'⟩ := ⟨rfl, Parser.finalToken_view views⟩
  have replies : (parseReply limit tokens).Alike w (Stmt.blurAll (.unplaced w))
      (parseReply limit tokens') := by
    rw [parseReply, parseReply, length]
    exact Parser.agrees_program _ _ _ ⟨tokens, 0⟩ ⟨tokens', 0⟩ settings ⟨views, rfl⟩
  generalize left : parseReply limit tokens = reply at replies
  generalize right : parseReply limit tokens' = reply' at replies
  cases replies with
  | parsed same _ =>
      exact .inr ⟨_, _, (Reply.result_eq_ok _).mpr ⟨_, left⟩,
        (Reply.result_eq_ok _).mpr ⟨_, right⟩, same⟩
  | refused _ _ expected =>
      exact .inl ⟨_, _, (Reply.result_eq_error _).mpr ⟨_, left⟩,
        (Reply.result_eq_error _).mpr ⟨_, right⟩, expected⟩
  | exhausted => exact absurd left (parseReply_ne_exhausted limit tokens)

end Ardoise
