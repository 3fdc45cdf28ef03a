import Ardoise.Proofs.Effects
import Mathlib.Logic.Relation

/-!
# The states that a run goes through

Evaluation gives the machine that a run leaves behind.  What happens on the way
is told by moments: a moment is a machine together with what is about to be done
on it, and it leads to the moments at which the parts of that task are begun.
The states of a run are those of the moments that its first moment leads to, in
any number of steps.
-/

namespace Ardoise

inductive Task where
  | expression (e : Expr)
  | expressions (es : List Expr)
  | statement (s : Stmt)
  | statements (ss : List Stmt)
  | whileTurns (condition : Expr) (body : List Stmt) (turns : Nat)
  | countTurns (counter : Name) (step last : Float) (body : List Stmt) (turns : Nat)
      (current : Float)
  | call (f : Function) (arguments : List Value) (span : Span)

structure Moment where
  /-- The fuel that is left for calls and counting loops. -/
  fuel : Nat
  task : Task
  machine : Machine

namespace Machine

def note (m : Machine) (event : Event) : Machine :=
  { m with journal := m.journal.push event }

def deepen (m : Machine) : Machine :=
  { m with depth := m.depth + 1 }

end Machine

theorem Run.record_bind {β : Type} (event : Event) (f : Unit → Run β) (m : Machine) :
    (Run.record event >>= f) m = f () (m.note event) := rfl

/-- The expression that a statement starts with; conditional loops evaluate theirs every turn. -/
def Stmt.leading? : Stmt → Option Expr
  | .expression value | .print _ value | .declare _ _ value | .give _ value => some value
  | .branch _ condition _ _ => some condition
  | .countLoop _ _ first _ _ => some first
  | .block _ | .whileLoop .. | .function .. => none

namespace Moment

/--
The parts of a task, each at the machine on which it is begun.  A part that
comes after others is begun on the machine that these have left.
-/
inductive LeadsTo (limit : Nat) : Moment → Moment → Prop
  | assigned {fuel : Nat} {m : Machine} {span : Span} {target : Name} {value : Expr} :
      LeadsTo limit ⟨fuel, .expression (.assign span target value), m⟩
        ⟨fuel, .expression value, m⟩
  | operand {fuel : Nat} {m : Machine} {span : Span} {op : Kind} {e : Expr} :
      LeadsTo limit ⟨fuel, .expression (.unary span op e), m⟩ ⟨fuel, .expression e, m⟩
  | binaryLeft {fuel : Nat} {m : Machine} {span : Span} {op : Kind} {left right : Expr} :
      LeadsTo limit ⟨fuel, .expression (.binary span op left right), m⟩ ⟨fuel, .expression left, m⟩
  | binaryRight {fuel : Nat} {m n : Machine} {span : Span} {op : Kind} {left right : Expr}
      {a : Value} (first : evaluate (invoke limit fuel) left m = .done a n) :
      LeadsTo limit ⟨fuel, .expression (.binary span op left right), m⟩
        ⟨fuel, .expression right, n⟩
  | logicalLeft {fuel : Nat} {m : Machine} {span : Span} {op : Kind} {spelling : String}
      {left right : Expr} :
      LeadsTo limit ⟨fuel, .expression (.logical span op spelling left right), m⟩
        ⟨fuel, .expression left, m⟩
  | logicalRight {fuel : Nat} {m n : Machine} {span : Span} {op : Kind} {spelling : String}
      {left right : Expr} {a : Bool}
      (first : evaluate (invoke limit fuel) left m = .done (.boolean a) n)
      (undecided : op.decides a = false) :
      LeadsTo limit ⟨fuel, .expression (.logical span op spelling left right), m⟩
        ⟨fuel, .expression right, n⟩
  | callee {fuel : Nat} {m : Machine} {span argumentsSpan : Span} {callee : Expr}
      {arguments : List Expr} :
      LeadsTo limit ⟨fuel, .expression (.call span argumentsSpan callee arguments), m⟩
        ⟨fuel, .expression callee, m⟩
  | arguments {fuel : Nat} {m n : Machine} {span argumentsSpan : Span} {callee : Expr}
      {arguments : List Expr} {f : Function}
      (found : evaluate (invoke limit fuel) callee m = .done (.function f) n)
      (agree : f.arity = arguments.length) :
      LeadsTo limit ⟨fuel, .expression (.call span argumentsSpan callee arguments), m⟩
        ⟨fuel, .expressions arguments, n⟩
  | call {fuel : Nat} {m n k : Machine} {span argumentsSpan : Span} {callee : Expr}
      {arguments : List Expr} {f : Function} {values : List Value}
      (found : evaluate (invoke limit fuel) callee m = .done (.function f) n)
      (agree : f.arity = arguments.length)
      (given : evaluateAll (invoke limit fuel) arguments n = .done values k) :
      LeadsTo limit ⟨fuel, .expression (.call span argumentsSpan callee arguments), m⟩
        ⟨fuel, .call f values span, k⟩
  | elements {fuel : Nat} {m : Machine} {span : Span} {elements : List Expr} :
      LeadsTo limit ⟨fuel, .expression (.array span elements), m⟩ ⟨fuel, .expressions elements, m⟩
  | source {fuel : Nat} {m : Machine} {span : Span} {source position : Expr} :
      LeadsTo limit ⟨fuel, .expression (.index span source position), m⟩
        ⟨fuel, .expression source, m⟩
  | position {fuel : Nat} {m n : Machine} {span : Span} {source position : Expr}
      {elements : List Value}
      (found : evaluate (invoke limit fuel) source m = .done (.array elements) n) :
      LeadsTo limit ⟨fuel, .expression (.index span source position), m⟩
        ⟨fuel, .expression position, n⟩
  | firstExpression {fuel : Nat} {m : Machine} {e : Expr} {rest : List Expr} :
      LeadsTo limit ⟨fuel, .expressions (e :: rest), m⟩ ⟨fuel, .expression e, m⟩
  | otherExpressions {fuel : Nat} {m n : Machine} {e : Expr} {rest : List Expr} {a : Value}
      (first : evaluate (invoke limit fuel) e m = .done a n) :
      LeadsTo limit ⟨fuel, .expressions (e :: rest), m⟩ ⟨fuel, .expressions rest, n⟩
  | leading {fuel : Nat} {m : Machine} {s : Stmt} {e : Expr} (starts : s.leading? = some e) :
      LeadsTo limit ⟨fuel, .statement s, m⟩ ⟨fuel, .expression e, m.note (.executing s.span)⟩
  | block {fuel : Nat} {m : Machine} {block : Block Stmt} :
      LeadsTo limit ⟨fuel, .statement (.block block), m⟩
        ⟨fuel, .statements block.body, (m.note (.executing block.span)).enter m.scope⟩
  | branchThen {fuel : Nat} {m n : Machine} {span : Span} {condition : Expr} {body : Block Stmt}
      {otherwise : Option (Block Stmt)}
      (holds : evaluateCondition (invoke limit fuel) condition (m.note (.executing span)) =
        .done true n) :
      LeadsTo limit ⟨fuel, .statement (.branch span condition body otherwise), m⟩
        ⟨fuel, .statements body.body, n.enter n.scope⟩
  | branchElse {fuel : Nat} {m n : Machine} {span : Span} {condition : Expr}
      {body other : Block Stmt}
      (fails : evaluateCondition (invoke limit fuel) condition (m.note (.executing span)) =
        .done false n) :
      LeadsTo limit ⟨fuel, .statement (.branch span condition body (some other)), m⟩
        ⟨fuel, .statements other.body, n.enter n.scope⟩
  | whileLoop {fuel : Nat} {m : Machine} {span : Span} {condition : Expr} {body : Block Stmt} :
      LeadsTo limit ⟨fuel, .statement (.whileLoop span condition body), m⟩
        ⟨fuel, .whileTurns condition body.body maxTurns, m.note (.executing span)⟩
  | condition {fuel : Nat} {m : Machine} {condition : Expr} {body : List Stmt} {turns : Nat} :
      LeadsTo limit ⟨fuel, .whileTurns condition body turns, m⟩ ⟨fuel, .expression condition, m⟩
  | whileBody {fuel : Nat} {m n : Machine} {condition : Expr} {body : List Stmt} {turns : Nat}
      (holds : evaluateCondition (invoke limit fuel) condition m = .done true n) :
      LeadsTo limit ⟨fuel, .whileTurns condition body (turns + 1), m⟩
        ⟨fuel, .statements body, n.enter n.scope⟩
  | whileAgain {fuel : Nat} {m n k : Machine} {condition : Expr} {body : List Stmt} {turns : Nat}
      (holds : evaluateCondition (invoke limit fuel) condition m = .done true n)
      (ran : Run.inChild (executeAll (invoke limit fuel) fuel body) n = .done .next k) :
      LeadsTo limit ⟨fuel, .whileTurns condition body (turns + 1), m⟩
        ⟨fuel, .whileTurns condition body turns, k⟩
  | lastBound {fuel : Nat} {m n : Machine} {span : Span} {counter : Name} {first last : Expr}
      {body : Block Stmt} {a : Float}
      (from' : evaluateBound (invoke limit fuel) .first first (m.note (.executing span)) =
        .done a n) :
      LeadsTo limit ⟨fuel, .statement (.countLoop span counter first last body), m⟩
        ⟨fuel, .expression last, n⟩
  | countLoop {fuel : Nat} {m n k : Machine} {span : Span} {counter : Name} {first last : Expr}
      {body : Block Stmt} {a b : Float}
      (from' : evaluateBound (invoke limit fuel) .first first (m.note (.executing span)) =
        .done a n)
      (to' : evaluateBound (invoke limit fuel) .last last n = .done b k) :
      LeadsTo limit ⟨fuel, .statement (.countLoop span counter first last body), m⟩
        ⟨fuel, .countTurns counter (countStep a b) b body.body fuel a, k⟩
  | countBody {fuel : Nat} {m n : Machine} {counter : Name} {step last : Float}
      {body : List Stmt} {turns : Nat} {current : Float}
      (inBounds : withinBounds step last current = true)
      (declared : Run.declare counter (.number current) (m.enter m.scope) = .done () n) :
      LeadsTo limit ⟨fuel, .countTurns counter step last body (turns + 1) current, m⟩
        ⟨fuel, .statements body, n⟩
  | countAgain {fuel : Nat} {m n : Machine} {counter : Name} {step last : Float}
      {body : List Stmt} {turns : Nat} {current : Float}
      (inBounds : withinBounds step last current = true)
      (ran : withCounter counter (executeAll (invoke limit fuel) fuel body) current m =
        .done .next n) :
      LeadsTo limit ⟨fuel, .countTurns counter step last body (turns + 1) current, m⟩
        ⟨fuel, .countTurns counter step last body turns (current + step), n⟩
  | firstStatement {fuel : Nat} {m : Machine} {s : Stmt} {rest : List Stmt} :
      LeadsTo limit ⟨fuel, .statements (s :: rest), m⟩ ⟨fuel, .statement s, m⟩
  | otherStatements {fuel : Nat} {m n : Machine} {s : Stmt} {rest : List Stmt}
      (first : execute (invoke limit fuel) fuel s m = .done .next n) :
      LeadsTo limit ⟨fuel, .statements (s :: rest), m⟩ ⟨fuel, .statements rest, n⟩
  | callBody {fuel : Nat} {m k n : Machine} {f : Closure} {arguments : List Value} {span : Span}
      (admitted : guardDepth limit f.name span (m.note (.calling f.name arguments.length)) =
        .done () k)
      (declared : Run.declareAllIn (k.enter f.scope).scope (f.parameters.zip arguments)
        (k.deepen.enter f.scope) = .done () n) :
      LeadsTo limit ⟨fuel + 1, .call (.closure f) arguments span, m⟩
        ⟨fuel, .statements f.body, n⟩

end Moment

/-! ## Calls that the limit allows -/

section

variable {limit : Nat} {m n : Machine} {name : String} {span : Span}

theorem guardDepth_of_le (full : limit ≤ m.depth) :
    guardDepth limit name span m =
      .failed ⟨span, .callDepthExceeded limit⟩ (m.note (.callStopped name span)) := by
  simp only [guardDepth, if_pos full]
  rfl

theorem guardDepth_of_lt (shallow : m.depth < limit) :
    guardDepth limit name span m = .done () m := by
  simp only [guardDepth, if_neg (Nat.not_le_of_lt shallow)]
  rfl

theorem guardDepth_done (h : guardDepth limit name span m = .done () n) :
    m.depth < limit ∧ n = m := by
  rcases Nat.lt_or_ge m.depth limit with shallow | full
  · rw [guardDepth_of_lt shallow] at h
    cases h
    exact ⟨shallow, rfl⟩
  · rw [guardDepth_of_le full] at h
    cases h

end

/-! ## What holds at every moment -/

theorem Outcome.Leaves.of_done {α : Type} {P : Machine → Prop} {o : Outcome α} {a : α}
    {n : Machine} (h : o.Leaves P) (done : o = .done a n) : P n := by
  rw [done] at h
  exact h

theorem Effects.leaves_declareAllIn_current {E S : Machine → Machine → Prop}
    (effects : Effects E S) {scope : Scope} (bindings : List (Name × Value)) {m : Machine}
    (current : m.scope = scope) : (Run.declareAllIn scope bindings m).Leaves (S m) := by
  induction bindings generalizing m with
  | nil => exact effects.stmtRefl m
  | cons binding rest ih =>
      subst current
      have first : (Run.declareIn m.scope binding.1 binding.2 m).Leaves
          fun n => S m n ∧ n.scope = m.scope := by
        unfold Run.declareIn
        split
        · rename_i store declared
          exact ⟨effects.declare declared, rfl⟩
        · exact ⟨effects.stmtRefl m, rfl⟩
      refine Run.leaves_bind first (fun _ n reached => ?_) fun _ reached => reached.1
      exact (ih reached.2).mono fun _ further => effects.stmtTrans reached.1 further

/--
A property of machines that every effect keeps, and that is kept on entering a
scope and on starting a call which the limit allows.
-/
structure Effects.Keeps (limit : Nat) (ofStmt : Machine → Machine → Prop)
    (P : Machine → Prop) : Prop where
  effect {m n : Machine} : ofStmt m n → P m → P n
  enter {m : Machine} (outer : Scope) : P m → P (m.enter outer)
  deepen {m : Machine} : m.depth < limit → P m → P m.deepen

def Task.isCall : Task → Bool
  | .call (.closure _) _ _ => true
  | _ => false

namespace Moment

variable {E S : Machine → Machine → Prop} {limit : Nat} {P : Machine → Prop}

/-- What is kept by effects and on entering a block is kept by all steps but calls. -/
theorem LeadsTo.preserves_inside (effects : Effects E S)
    (effect : ∀ {m n : Machine}, S m n → P m → P n)
    (enter : ∀ {m : Machine}, P m → P (m.enter m.scope))
    {x y : Moment} (step : LeadsTo limit x y) (inside : x.task.isCall = false)
    (h : P x.machine) : P y.machine := by
  have calls := effects.within_invoke limit
  -- what an expression does is also an effect of statements
  have after : ∀ {α : Type} {r : Run α} {m n : Machine} {a : α}, Run.Within E r →
      r m = .done a n → P m → P n :=
    fun within done => effect (effects.lift ((within _).of_done done))
  have noted : ∀ {m : Machine} (event : Event), P m → P (m.note event) :=
    fun {m} event => effect (effects.lift (effects.record m event))
  cases step with
  | assigned | operand | binaryLeft | logicalLeft | callee | elements | source | firstExpression
  | condition | firstStatement => exact h
  | binaryRight first => exact after (effects.within_evaluate (calls _) _) first h
  | logicalRight first _ => exact after (effects.within_evaluate (calls _) _) first h
  | arguments found _ => exact after (effects.within_evaluate (calls _) _) found h
  | call found _ given =>
      have reached := after (effects.within_evaluate (calls _) _) found h
      exact after (effects.within_evaluateAll (calls _) _) given reached
  | position found => exact after (effects.within_evaluate (calls _) _) found h
  | otherExpressions first => exact after (effects.within_evaluate (calls _) _) first h
  | leading _ => exact noted _ h
  | block => exact enter (noted _ h)
  | branchThen holds =>
      exact enter (after (effects.within_evaluateCondition (calls _) _) holds (noted _ h))
  | branchElse fails =>
      exact enter (after (effects.within_evaluateCondition (calls _) _) fails (noted _ h))
  | whileLoop => exact noted _ h
  | whileBody holds =>
      exact enter (after (effects.within_evaluateCondition (calls _) _) holds h)
  | whileAgain holds ran =>
      have reached := after (effects.within_evaluateCondition (calls _) _) holds h
      exact after (effects.within_inChild (effects.within_executeAll (calls _) _ _)) ran reached
  | lastBound from' => exact after (effects.within_evaluateBound (calls _) _ _) from' (noted _ h)
  | countLoop from' to' =>
      have reached := after (effects.within_evaluateBound (calls _) _ _) from' (noted _ h)
      exact after (effects.within_evaluateBound (calls _) _ _) to' reached
  | countBody _ declared =>
      exact effect ((effects.within_declare _ _ _).of_done declared) (enter h)
  | countAgain _ ran =>
      exact after
        (effects.within_withCounter _ (effects.within_executeAll (calls _) _ _) _) ran h
  | otherStatements first =>
      exact effect ((effects.within_execute (calls _) _ _ _).of_done first) h
  | callBody => cases inside

private theorem LeadsTo.preserves (effects : Effects E S) (keeps : Effects.Keeps limit S P)
    {x y : Moment} (step : LeadsTo limit x y) (h : P x.machine) : P y.machine := by
  cases calling : x.task.isCall with
  | false => exact step.preserves_inside effects keeps.effect (keeps.enter _) calling h
  | true =>
      cases step with
      | @callBody _ m _ n f arguments _ admitted declared =>
          obtain ⟨shallow, rfl⟩ := guardDepth_done admitted
          have noted : P (m.note (.calling f.name arguments.length)) :=
            keeps.effect (effects.lift (effects.record m _)) h
          have counted : P (m.note (.calling f.name arguments.length)).deepen :=
            keeps.deepen shallow noted
          have opened := keeps.enter f.scope counted
          exact keeps.effect
            ((effects.leaves_declareAllIn_current (f.parameters.zip arguments) rfl).of_done
              declared) opened
      | _ => cases calling

theorem preserves_of_reflTransGen (effects : Effects E S) (keeps : Effects.Keeps limit S P)
    {x y : Moment} (path : Relation.ReflTransGen (LeadsTo limit) x y) (h : P x.machine) :
    P y.machine := by
  induction path with
  | refl => exact h
  | tail _ step ih => exact step.preserves effects keeps ih

end Moment

end Ardoise
