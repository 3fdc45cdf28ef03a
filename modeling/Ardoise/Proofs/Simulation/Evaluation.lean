import Ardoise.Machine.Evaluation
import Ardoise.Proofs.Simulation.Run

/-!
# A program and its blurred form run alike

By induction on the program, with calls and turns taken care of by their fuel:
`simulates_runProgram` says that a program simulates its blurred form under any
pairing, whatever their common limits are.
-/

namespace Ardoise

inductive Flow.Matches (p : Pairing) : Flow → Flow → Prop
  | next : Matches p .next .next
  | give {v w : Value} (values : v.Matches p w) : Matches p (.give v) (.give w)

open Run

variable {p : Pairing}

def Invoke.Matches (p : Pairing) (i j : Invoke) : Prop :=
  ∀ {f g : Function} {vs ws : List Value} (span : Span), f.Matches p g →
    List.Forall₂ (Value.Matches p) vs ws →
    Simulates p (Value.Matches p) (i f vs span) (j g ws (p.blur.span span))

section Casts

variable {v w : Value}

theorem simulates_asBoolean (span : Span) {fault fault' : String → RuntimeFault}
    (faults : ∀ found, fault' found = (fault found).blur p.blur) (values : v.Matches p w) :
    Simulates p Eq (asBoolean span fault v) (asBoolean (p.blur.span span) fault' w) := by
  cases values with
  | boolean value => exact simulates_pure rfl
  | _ =>
      simp only [asBoolean, faults]
      exact simulates_fail span _

theorem simulates_asNumber (span : Span) {fault fault' : String → RuntimeFault}
    (faults : ∀ found, fault' found = (fault found).blur p.blur) (values : v.Matches p w) :
    Simulates p Eq (asNumber span fault v) (asNumber (p.blur.span span) fault' w) := by
  cases values with
  | number value => exact simulates_pure rfl
  | _ =>
      simp only [asNumber, faults]
      exact simulates_fail span _

private theorem simulates_asFunction (span argumentsSpan : Span) (received : Nat)
    (values : v.Matches p w) :
    Simulates p (Function.Matches p) (asFunction span argumentsSpan received v)
      (asFunction (p.blur.span span) (p.blur.span argumentsSpan) received w) := by
  cases values with
  | function functions =>
      simp only [asFunction, functions.arity_eq]
      split
      · exact simulates_pure functions
      · exact simulates_fail argumentsSpan _
  | _ => exact simulates_fail span _

private theorem simulates_asElements (span : Span) (values : v.Matches p w) :
    Simulates p (List.Forall₂ (Value.Matches p)) (asElements span v)
      (asElements (p.blur.span span) w) := by
  cases values with
  | array elements => exact simulates_pure elements
  | _ => exact simulates_fail span _

end Casts

mutual

theorem simulates_evaluate {i j : Invoke} (calls : Invoke.Matches p i j) :
    (e : Expr) → Simulates p (Value.Matches p) (evaluate i e) (evaluate j (e.blur p.blur))
  | .literal _ value => simulates_pure (.ofLiteral p value)
  | .lookup _ name => simulates_lookup name
  | .assign _ target value => by
      simp only [evaluate, Expr.blur]
      refine (simulates_evaluate calls value).bind fun values => ?_
      exact (simulates_assign target values).bind fun _ => simulates_pure values
  | .unary span op operand => by
      simp only [evaluate, Expr.blur]
      exact (simulates_evaluate calls operand).bind fun values =>
        simulates_ofExcept span (resultsMatch_unary op values)
  | .binary span op left right => by
      simp only [evaluate, Expr.blur]
      refine (simulates_evaluate calls left).bind fun lefts => ?_
      exact (simulates_evaluate calls right).bind fun rights =>
        simulates_ofExcept span (resultsMatch_binary op lefts rights)
  | .logical _ op spelling left right => by
      simp only [evaluate, Expr.blur, Expr.span_blur]
      refine (simulates_evaluate calls left).bind fun lefts => ?_
      refine (simulates_asBoolean left.span (fun _ => rfl) lefts).bind ?_
      rintro a _ rfl
      split
      · exact simulates_pure (.boolean a)
      · refine (simulates_evaluate calls right).bind fun rights => ?_
        refine (simulates_asBoolean right.span (fun _ => rfl) rights).bind ?_
        rintro b _ rfl
        exact simulates_pure (.boolean b)
  | .call span argumentsSpan callee arguments => by
      simp only [evaluate, Expr.blur, Expr.length_blurAll]
      refine (simulates_evaluate calls callee).bind fun callees => ?_
      refine (simulates_asFunction span argumentsSpan _ callees).bind fun functions => ?_
      exact (simulates_evaluateAll calls arguments).bind fun values => calls span functions values
  | .array _ elements => by
      simp only [evaluate, Expr.blur]
      exact (simulates_evaluateAll calls elements).bind fun values =>
        simulates_pure (.array values)
  | .index _ source position => by
      simp only [evaluate, Expr.blur, Expr.span_blur]
      refine (simulates_evaluate calls source).bind fun sources => ?_
      refine (simulates_asElements source.span sources).bind fun elements => ?_
      refine (simulates_evaluate calls position).bind fun positions => ?_
      refine (simulates_asNumber position.span (fun _ => rfl) positions).bind ?_
      rintro index _ rfl
      exact simulates_ofExcept position.span (resultsMatch_elementAt elements index)

theorem simulates_evaluateAll {i j : Invoke} (calls : Invoke.Matches p i j) :
    (es : List Expr) → Simulates p (List.Forall₂ (Value.Matches p)) (evaluateAll i es)
      (evaluateAll j (Expr.blurAll p.blur es))
  | [] => simulates_pure .nil
  | e :: rest => by
      simp only [evaluateAll, Expr.blurAll]
      refine (simulates_evaluate calls e).bind fun value => ?_
      exact (simulates_evaluateAll calls rest).bind fun values =>
        simulates_pure (.cons value values)

end

section Loops

variable {condition condition' : Run Bool} {body body' : Run Flow}

theorem simulates_whileTurns (span : Span) (conditions : Simulates p Eq condition condition')
    (bodies : Simulates p (Flow.Matches p) body body') (turns : Nat) :
    Simulates p (Flow.Matches p) (whileTurns span condition body turns)
      (whileTurns (p.blur.span span) condition' body' turns) := by
  induction turns with
  | zero =>
      simp only [whileTurns]
      refine conditions.bind ?_
      rintro holds _ rfl
      split
      · exact (simulates_record _ _).bind fun _ => simulates_fail span _
      · exact simulates_pure .next
  | succ turns ih =>
      simp only [whileTurns]
      refine conditions.bind ?_
      rintro holds _ rfl
      split
      · refine bodies.bind fun flows => ?_
        cases flows with
        | next => exact ih
        | give values => exact simulates_pure (.give values)
      · exact simulates_pure .next

private theorem simulates_countTurns (step last : Float) {body body' : Float → Run Flow}
    (bodies : ∀ current, Simulates p (Flow.Matches p) (body current) (body' current))
    {fuel fuel' : Nat} (fuels : p.Fuels fuel fuel') (current : Float) :
    Simulates p (Flow.Matches p) (countTurns step last body fuel current)
      (countTurns step last body' fuel' current) := by
  induction fuel generalizing fuel' current with
  | zero => exact simulates_exhausted (fuels.zero.imp_left fun spent => by rw [spent]; rfl)
  | succ fuel ih =>
      obtain ⟨fuel', rfl, left⟩ := fuels.succ
      simp only [countTurns]
      split
      · refine (bodies current).bind fun flows => ?_
        cases flows with
        | next => exact ih left _
        | give values => exact simulates_pure (.give values)
      · exact simulates_pure .next

private theorem simulates_withCounter (counter : Name)
    (bodies : Simulates p (Flow.Matches p) body body') (current : Float) :
    Simulates p (Flow.Matches p) (withCounter counter body current)
      (withCounter (counter.blur p.blur) body' current) := by
  intro m n machines
  refine Simulates.bind (simulates_newScope machines.scope) (fun scopes => ?_) m n machines
  exact (simulates_declareIn scopes counter (.number current)).bind fun _ => bodies.inside scopes

end Loops

section Statements

variable {i j : Invoke} (calls : Invoke.Matches p i j)
include calls

theorem simulates_evaluateCondition (condition : Expr) :
    Simulates p Eq (evaluateCondition i condition)
      (evaluateCondition j (condition.blur p.blur)) := by
  simp only [evaluateCondition, Expr.span_blur]
  exact (simulates_evaluate calls condition).bind fun values =>
    simulates_asBoolean condition.span (fun _ => rfl) values

theorem simulates_evaluateBound (bound : Bound) (e : Expr) :
    Simulates p Eq (evaluateBound i bound e) (evaluateBound j bound (e.blur p.blur)) := by
  simp only [evaluateBound, Expr.span_blur]
  exact (simulates_evaluate calls e).bind fun values =>
    simulates_asNumber e.span (fun _ => rfl) values

end Statements

mutual

theorem simulates_execute {i j : Invoke} (calls : Invoke.Matches p i j) {fuel fuel' : Nat}
    (fuels : p.Fuels fuel fuel') :
    (s : Stmt) → Simulates p (Flow.Matches p) (execute i fuel s)
      (execute j fuel' (s.blur p.blur))
  | .expression value => by
      simp only [execute, Stmt.blur]
      refine (simulates_record _ _).bind fun _ => ?_
      exact (simulates_evaluate calls value).bind fun _ => simulates_pure .next
  | .print _ value => by
      simp only [execute, Stmt.blur]
      refine (simulates_record _ _).bind fun _ => ?_
      refine (simulates_evaluate calls value).bind fun {v _} values => ?_
      rw [← values.display_eq v]
      exact (simulates_print _).bind fun _ => simulates_pure .next
  | .declare _ name value => by
      simp only [execute, Stmt.blur]
      refine (simulates_record _ _).bind fun _ => ?_
      refine (simulates_evaluate calls value).bind fun values => ?_
      exact (simulates_declare name values).bind fun _ => simulates_pure .next
  | .block ⟨_, body⟩ => by
      simp only [execute, Stmt.blur]
      exact (simulates_record _ _).bind fun _ => (simulates_executeAll calls fuels body).inChild
  | .branch _ condition ⟨_, body⟩ none => by
      simp only [execute, Stmt.blur]
      refine (simulates_record _ _).bind fun _ => ?_
      refine (simulates_evaluateCondition calls condition).bind ?_
      rintro holds _ rfl
      split
      · exact (simulates_executeAll calls fuels body).inChild
      · exact simulates_pure .next
  | .branch _ condition ⟨_, body⟩ (some ⟨_, otherwise⟩) => by
      simp only [execute, Stmt.blur]
      refine (simulates_record _ _).bind fun _ => ?_
      refine (simulates_evaluateCondition calls condition).bind ?_
      rintro holds _ rfl
      split
      · exact (simulates_executeAll calls fuels body).inChild
      · exact (simulates_executeAll calls fuels otherwise).inChild
  | .whileLoop _ condition ⟨_, body⟩ => by
      simp only [execute, Stmt.blur, Expr.span_blur]
      refine (simulates_record _ _).bind fun _ => ?_
      exact simulates_whileTurns condition.span (simulates_evaluateCondition calls condition)
        (simulates_executeAll calls fuels body).inChild maxTurns
  | .countLoop _ counter first last ⟨_, body⟩ => by
      simp only [execute, Stmt.blur]
      refine (simulates_record _ _).bind fun _ => ?_
      refine (simulates_evaluateBound calls .first first).bind ?_
      rintro a _ rfl
      refine (simulates_evaluateBound calls .last last).bind ?_
      rintro b _ rfl
      exact simulates_countTurns _ b
        (simulates_withCounter counter (simulates_executeAll calls fuels body)) fuels a
  | .function _ name parameters body => by
      simp only [execute, Stmt.blur, Name.blur_text]
      refine (simulates_record _ _).bind fun _ => ?_
      refine (simulates_closeOver name.text parameters body).bind fun values => ?_
      exact (simulates_declare name values).bind fun _ => simulates_pure .next
  | .give _ value => by
      simp only [execute, Stmt.blur]
      refine (simulates_record _ _).bind fun _ => ?_
      exact (simulates_evaluate calls value).bind fun values => simulates_pure (.give values)

theorem simulates_executeAll {i j : Invoke} (calls : Invoke.Matches p i j) {fuel fuel' : Nat}
    (fuels : p.Fuels fuel fuel') :
    (ss : List Stmt) → Simulates p (Flow.Matches p) (executeAll i fuel ss)
      (executeAll j fuel' (Stmt.blurAll p.blur ss))
  | [] => simulates_pure .next
  | s :: rest => by
      simp only [executeAll, Stmt.blurAll]
      refine (simulates_execute calls fuels s).bind fun flows => ?_
      cases flows with
      | next => exact simulates_executeAll calls fuels rest
      | give values => exact simulates_pure (.give values)

end

/-! ## Calls -/

private theorem Builtin.wrongCount_eq {vs ws : List Value} (count : vs.length = ws.length) :
    Builtin.wrongCount vs = Builtin.wrongCount ws := by
  unfold Builtin.wrongCount
  rw [count]

/-- No library function looks at what tells matching values apart. -/
theorem Builtin.apply_eq (f : Builtin) {vs ws : List Value}
    (values : List.Forall₂ (Value.Matches p) vs ws) : f.apply vs = f.apply ws := by
  have displays : vs.map Value.display = ws.map Value.display := by
    rw [← Value.displays_eq_map, ← Value.displays_eq_map, Value.Matches.displays_eq vs values]
  have count := values.length_eq
  cases f with
  | ecrire => simp only [Builtin.apply, displays]
  | arrondir | taille =>
      rcases values with _ | ⟨value, rest⟩
      · rfl
      · rcases rest with _ | _
        · cases value with
          | array elements => simp only [Builtin.apply, elements.length_eq, Value.kind]
          | _ => simp only [Builtin.apply, Value.kind]
        · have reasons := Builtin.wrongCount_eq count
          cases value <;> exact congrArg LibraryAnswer.refuses reasons

private theorem Builtin.number_of_apply {f : Builtin} {vs : List Value} {value : Value}
    (h : f.apply vs = .gives value) : ∃ x, value = .number x := by
  unfold Builtin.apply at h
  split at h <;> cases h <;> exact ⟨_, rfl⟩

private theorem simulates_invokeBuiltin (f : Builtin) {vs ws : List Value}
    (values : List.Forall₂ (Value.Matches p) vs ws) (span : Span) :
    Simulates p (Value.Matches p) (invokeBuiltin f vs span)
      (invokeBuiltin f ws (p.blur.span span)) := by
  simp only [invokeBuiltin, f.apply_eq values]
  cases answer : f.apply ws with
  | gives value =>
      obtain ⟨x, rfl⟩ := Builtin.number_of_apply answer
      exact simulates_pure (.number x)
  | prints line => exact (simulates_print line).bind fun _ => simulates_pure .void
  | refuses reason => exact simulates_fail span _

private theorem simulates_guardDepth (limit : Nat) (name : String) (span : Span) :
    Simulates p (fun _ _ => True) (guardDepth limit name span)
      (guardDepth limit name (p.blur.span span)) := by
  intro m n machines
  simp only [guardDepth, machines.depth]
  split
  · exact (simulates_record _ _).bind (fun _ => simulates_fail span _) m n machines
  · exact simulates_pure trivial m n machines

private theorem invokesMatch (limit : Nat) {fuel fuel' : Nat} (fuels : p.Fuels fuel fuel') :
    Invoke.Matches p (invoke limit fuel) (invoke limit fuel') := by
  induction fuel generalizing fuel' with
  | zero =>
      intro f g vs ws span _ _
      exact simulates_exhausted (fuels.zero.imp_left fun spent => by rw [spent]; rfl)
  | succ fuel ih =>
      obtain ⟨fuel', rfl, left⟩ := fuels.succ
      intro f g vs ws span functions values
      simp only [invoke]
      refine (simulates_record _ _).bind fun _ => ?_
      cases functions with
      | builtin f _ => exact simulates_invokeBuiltin f values span
      | closure name _ parameters body numbers scopes =>
          simp only [invokeClosure]
          refine (simulates_guardDepth limit name span).bind fun _ => ?_
          refine (simulates_newScope scopes).bind fun opened => ?_
          refine (simulates_declareAllIn opened parameters values).bind fun _ => ?_
          -- the body has one unit of fuel less, for the calls and for the loops in it
          have bodies := (simulates_executeAll (ih left) left body).inside opened
          refine bodies.duringCall.bind fun flows => ?_
          cases flows with
          | next => exact simulates_pure .void
          | give value => exact simulates_pure value

theorem simulates_runProgram (limits : Limits) {fuel fuel' : Nat} (fuels : p.Fuels fuel fuel')
    (program : Program) :
    Simulates p (Flow.Matches p) (runProgram limits fuel program)
      (runProgram limits fuel' (Stmt.blurAll p.blur program)) :=
  simulates_executeAll (invokesMatch limits.callDepth fuels) fuels program

end Ardoise
