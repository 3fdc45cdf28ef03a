import Ardoise.Machine.Evaluation

/-!
# What a run can do to the machine

`Effects` lists the steps that evaluation is made of, each with the relation
that it keeps between the machine before and the machine after.  Expressions
keep one relation and statements a second, wider one, since only statements
declare names in the current scope; what statements do in a scope that was
opened for them counts as the effect of an expression again.  The theorems below
carry such relations from the steps to whole runs, also to those that fail.
-/

namespace Ardoise

namespace Machine

def enter (m : Machine) (outer : Scope) : Machine :=
  { m with
    store := (m.store.newChild outer).2
    scope := (m.store.newChild outer).1 }

theorem scope_enter_lt (m : Machine) (outer : Scope) :
    (m.enter outer).scope.index < (m.enter outer).store.frames.size := by
  simp [enter, Store.newChild, Store.push]

theorem frame_enter (m : Machine) (outer : Scope) :
    (m.enter outer).store.frame (m.enter outer).scope = .empty (m.store.chain outer) :=
  Store.frame_push_self _ _

end Machine

structure Effects (ofExpr ofStmt : Machine → Machine → Prop) : Prop where
  refl (m : Machine) : ofExpr m m
  trans {a b c : Machine} : ofExpr a b → ofExpr b c → ofExpr a c
  stmtTrans {a b c : Machine} : ofStmt a b → ofStmt b c → ofStmt a c
  lift {a b : Machine} : ofExpr a b → ofStmt a b
  record (m : Machine) (event : Event) : ofExpr m { m with journal := m.journal.push event }
  print (m : Machine) (line : String) : ofExpr m { m with lines := m.lines.push line }
  assign {m : Machine} {name : String} {value : Value} {store : Store} :
    m.store.assign m.scope name value = .ok store → ofExpr m { m with store := store }
  declare {m : Machine} {name : String} {value : Value} {store : Store} :
    m.store.define m.scope name value = .ok store → ofStmt m { m with store := store }
  capture (m : Machine) :
    ofStmt m { m with captured := m.scope :: m.captured, closures := m.closures + 1 }
  /-- Entering a new scope and leaving it again. -/
  leave {m n : Machine} (outer : Scope) :
    ofStmt (m.enter outer) n → ofExpr m { n with scope := m.scope }
  call {m n : Machine} :
    ofStmt { m with depth := m.depth + 1 } n → ofStmt m { n with depth := n.depth - 1 }

def Outcome.Leaves {α : Type} (P : Machine → Prop) : Outcome α → Prop
  | .done _ m => P m
  | .failed _ m => P m
  | .exhausted => True

theorem Outcome.Leaves.mono {α : Type} {P Q : Machine → Prop} {o : Outcome α} (h : o.Leaves P)
    (weaker : ∀ m, P m → Q m) : o.Leaves Q := by
  cases o with
  | done a m => exact weaker m h
  | failed fault m => exact weaker m h
  | exhausted => trivial

namespace Run

def Within {α : Type} (R : Machine → Machine → Prop) (r : Run α) : Prop :=
  ∀ m, (r m).Leaves (R m)

variable {α β : Type} {R E S : Machine → Machine → Prop}

theorem leaves_bind {P Q : Machine → Prop} {r : Run α} {f : α → Run β} {m : Machine}
    (first : (r m).Leaves P) (second : ∀ a n, P n → (f a n).Leaves Q)
    (kept : ∀ n, P n → Q n) : ((r >>= f) m).Leaves Q := by
  change (Run.bind r f m).Leaves Q
  unfold Run.bind
  cases outcome : r m with
  | done a n =>
      rw [outcome] at first
      exact second a n first
  | failed fault n =>
      rw [outcome] at first
      exact kept n first
  | exhausted => trivial

theorem Within.bind {r : Run α} {f : α → Run β} (trans : ∀ {a b c}, R a b → R b c → R a c)
    (first : Within R r) (second : ∀ a, Within R (f a)) : Within R (r >>= f) := by
  intro m
  refine leaves_bind (first m) (fun a n reached => ?_) (fun _ reached => reached)
  exact (second a n).mono fun _ further => trans reached further

theorem Within.mono {r : Run α} (h : Within E r) (weaker : ∀ {a b}, E a b → S a b) :
    Within S r :=
  fun m => (h m).mono fun _ kept => weaker kept

theorem bind_done {r : Run α} {m n : Machine} {a : α} (first : r m = .done a n) (f : α → Run β) :
    (r >>= f) m = f a n := by
  change Run.bind r f m = _
  unfold Run.bind
  rw [first]

theorem bind_failed {r : Run α} {m n : Machine} {fault : Located RuntimeFault}
    (first : r m = .failed fault n) (f : α → Run β) : (r >>= f) m = .failed fault n := by
  change Run.bind r f m = _
  unfold Run.bind
  rw [first]

theorem newScope_bind (outer : Scope) (f : Scope → Run β) (m : Machine) :
    (newScope outer >>= f) m =
      f (m.enter outer).scope { m with store := (m.store.newChild outer).2 } := rfl

theorem closeOver_bind (name : String) (parameters : List Name) (body : List Stmt)
    (f : Value → Run β) (m : Machine) :
    (closeOver name parameters body >>= f) m =
      f (.function (.closure ⟨m.closures, name, parameters.length, parameters, body, m.scope⟩))
        { m with captured := m.scope :: m.captured, closures := m.closures + 1 } := rfl

theorem within_exhausted : Within R (Run.exhausted : Run α) := fun _ => trivial

end Run

namespace Effects

open Run

variable {α β : Type} {E S : Machine → Machine → Prop} (effects : Effects E S)
include effects

theorem stmtRefl (m : Machine) : S m m := effects.lift (effects.refl m)

theorem within_pure (a : α) : Within E (pure a : Run α) := fun m => effects.refl m

theorem within_fail (span : Span) (fault : RuntimeFault) : Within E (fail span fault : Run α) :=
  fun m => effects.refl m

theorem within_ofExcept (span : Span) (x : Except RuntimeFault α) :
    Within E (ofExcept span x) := by
  cases x with
  | ok a => exact effects.within_pure a
  | error fault => exact effects.within_fail span fault

theorem within_record (event : Event) : Within E (Run.record event) :=
  fun m => effects.record m event

theorem within_print (line : String) : Within E (Run.print line) :=
  fun m => effects.print m line

private theorem within_lookup (name : Name) : Within E (lookup name) := by
  intro m
  unfold lookup
  split
  · exact effects.refl m
  · exact effects.refl m

theorem within_assign (name : Name) (value : Value) : Within E (Run.assign name value) := by
  intro m
  unfold Run.assign
  split
  · rename_i store assigned
    exact effects.assign assigned
  · exact effects.refl m

theorem within_declare (name : Name) (value : Value) : Within S (Run.declare name value) := by
  intro m
  unfold Run.declare Run.declareIn
  split
  · rename_i store declared
    exact effects.declare declared
  · exact effects.stmtRefl m

private theorem within_closeOver (name : String) (parameters : List Name) (body : List Stmt) :
    Within S (closeOver name parameters body) :=
  fun m => effects.capture m

private theorem within_duringCall {r : Run α} (h : Within S r) : Within S (duringCall r) := by
  intro m
  have inner := h { m with depth := m.depth + 1 }
  unfold duringCall
  generalize r { m with depth := m.depth + 1 } = outcome at inner
  cases outcome with
  | done a n => exact effects.call inner
  | failed fault n => exact effects.call inner
  | exhausted => trivial

/-! ## Work in a new scope

Until the new scope is made current, the names that go into it are declared from
outside.  What is done so far is then measured as if it were current already. -/

/-- From `m`, a scope inside `outer` was opened, and all that was done since was done in it. -/
def InNew (S : Machine → Machine → Prop) (m : Machine) (outer : Scope) (n : Machine) : Prop :=
  n.scope = m.scope ∧ S (m.enter outer) { n with scope := (m.enter outer).scope }

theorem of_inNew {m n : Machine} {outer : Scope} (h : InNew S m outer n) : E m n := by
  obtain ⟨same, done⟩ := h
  have left := effects.leave outer done
  rw [← same] at left
  exact left

theorem inNew_start (m : Machine) (outer : Scope) :
    InNew S m outer { m with store := (m.store.newChild outer).2 } :=
  ⟨rfl, effects.stmtRefl _⟩

theorem leaves_declareIn {m n : Machine} {outer : Scope} (h : InNew S m outer n) (name : Name)
    (value : Value) :
    (declareIn (m.enter outer).scope name value n).Leaves (InNew S m outer) := by
  unfold declareIn
  split
  · rename_i store declared
    refine ⟨h.1, effects.stmtTrans h.2 ?_⟩
    exact effects.declare (m := { n with scope := (m.enter outer).scope }) declared
  · exact h

private theorem leaves_declareAllIn {m : Machine} {outer : Scope} (bindings : List (Name × Value)) :
    ∀ n, InNew S m outer n →
      (declareAllIn (m.enter outer).scope bindings n).Leaves (InNew S m outer) := by
  induction bindings with
  | nil => exact fun _ h => h
  | cons binding rest ih =>
      intro n h
      exact leaves_bind (effects.leaves_declareIn h binding.1 binding.2) (fun _ => ih)
        fun _ h => h

theorem leaves_inside {m n : Machine} {outer : Scope} (h : InNew S m outer n) {r : Run α}
    (body : Within S r) : (inside (m.enter outer).scope r n).Leaves (E m) := by
  have inner := body { n with scope := (m.enter outer).scope }
  unfold inside
  generalize r { n with scope := (m.enter outer).scope } = outcome at inner
  cases outcome with
  | done a k | failed _ k =>
      have left := effects.leave outer (effects.stmtTrans h.2 inner)
      rw [← h.1] at left
      exact left
  | exhausted => trivial

theorem within_inChild {r : Run α} (body : Within S r) : Within E (inChild r) :=
  fun m => effects.leaves_inside (effects.inNew_start m m.scope) body

theorem within_withCounter (counter : Name) {body : Run Flow} (h : Within S body)
    (current : Float) : Within E (withCounter counter body current) := by
  intro m
  unfold withCounter
  rw [newScope_bind]
  refine leaves_bind (P := InNew S m m.scope) ?_ (fun _ n reached => ?_)
    fun _ => effects.of_inNew
  · exact effects.leaves_declareIn (effects.inNew_start m m.scope) counter _
  · exact effects.leaves_inside reached h

end Effects

theorem Run.duringCall_inside {α : Type} (scope : Scope) (r : Run α) :
    duringCall (inside scope r) = inside scope (duringCall r) := by
  funext m
  simp only [duringCall, inside]
  cases r { m with scope := scope, depth := m.depth + 1 } <;> rfl

namespace Effects

open Run

variable {E S : Machine → Machine → Prop} (effects : Effects E S)
include effects

theorem within_asBoolean (span : Span) (fault : String → RuntimeFault) (value : Value) :
    Within E (asBoolean span fault value) := by
  unfold asBoolean
  split
  · exact effects.within_pure _
  · exact effects.within_fail _ _

theorem within_asNumber (span : Span) (fault : String → RuntimeFault) (value : Value) :
    Within E (asNumber span fault value) := by
  unfold asNumber
  split
  · exact effects.within_pure _
  · exact effects.within_fail _ _

theorem within_asFunction (span argumentsSpan : Span) (received : Nat) (value : Value) :
    Within E (asFunction span argumentsSpan received value) := by
  unfold asFunction
  split
  · split
    · exact effects.within_pure _
    · exact effects.within_fail _ _
  · exact effects.within_fail _ _

theorem within_asElements (span : Span) (value : Value) : Within E (asElements span value) := by
  unfold asElements
  split
  · exact effects.within_pure _
  · exact effects.within_fail _ _

end Effects

/-! ## Expressions -/

section Expressions

open Run

variable {E S : Machine → Machine → Prop}

mutual

theorem Effects.within_evaluate (effects : Effects E S) {i : Invoke}
    (calls : ∀ f vs span, Within E (i f vs span)) : (e : Expr) → Within E (evaluate i e)
  | .literal _ _ => effects.within_pure _
  | .lookup _ name => effects.within_lookup name
  | .assign _ target value => by
      simp only [evaluate]
      refine (effects.within_evaluate calls value).bind effects.trans fun v => ?_
      exact (effects.within_assign target v).bind effects.trans fun _ => effects.within_pure _
  | .unary span _ operand => by
      simp only [evaluate]
      exact (effects.within_evaluate calls operand).bind effects.trans fun _ =>
        effects.within_ofExcept span _
  | .binary span _ left right => by
      simp only [evaluate]
      refine (effects.within_evaluate calls left).bind effects.trans fun _ => ?_
      exact (effects.within_evaluate calls right).bind effects.trans fun _ =>
        effects.within_ofExcept span _
  | .logical _ _ _ left right => by
      simp only [evaluate]
      refine (effects.within_evaluate calls left).bind effects.trans fun _ => ?_
      refine (effects.within_asBoolean _ _ _).bind effects.trans fun _ => ?_
      split
      · exact effects.within_pure _
      · refine (effects.within_evaluate calls right).bind effects.trans fun _ => ?_
        exact (effects.within_asBoolean _ _ _).bind effects.trans fun _ => effects.within_pure _
  | .call _ _ callee arguments => by
      simp only [evaluate]
      refine (effects.within_evaluate calls callee).bind effects.trans fun _ => ?_
      refine (effects.within_asFunction _ _ _ _).bind effects.trans fun _ => ?_
      exact (effects.within_evaluateAll calls arguments).bind effects.trans fun _ => calls _ _ _
  | .array _ elements => by
      simp only [evaluate]
      exact (effects.within_evaluateAll calls elements).bind effects.trans fun _ =>
        effects.within_pure _
  | .index _ source position => by
      simp only [evaluate]
      refine (effects.within_evaluate calls source).bind effects.trans fun _ => ?_
      refine (effects.within_asElements _ _).bind effects.trans fun _ => ?_
      refine (effects.within_evaluate calls position).bind effects.trans fun _ => ?_
      exact (effects.within_asNumber _ _ _).bind effects.trans fun _ =>
        effects.within_ofExcept _ _

theorem Effects.within_evaluateAll (effects : Effects E S) {i : Invoke}
    (calls : ∀ f vs span, Within E (i f vs span)) :
    (es : List Expr) → Within E (evaluateAll i es)
  | [] => effects.within_pure _
  | e :: rest => by
      simp only [evaluateAll]
      refine (effects.within_evaluate calls e).bind effects.trans fun _ => ?_
      exact (effects.within_evaluateAll calls rest).bind effects.trans fun _ =>
        effects.within_pure _

end

end Expressions

/-! ## Statements -/

namespace Effects

open Run

variable {E S : Machine → Machine → Prop} (effects : Effects E S)
include effects

theorem within_evaluateCondition {i : Invoke} (calls : ∀ f vs span, Within E (i f vs span))
    (condition : Expr) : Within E (evaluateCondition i condition) :=
  (effects.within_evaluate calls condition).bind effects.trans fun _ =>
    effects.within_asBoolean _ _ _

theorem within_evaluateBound {i : Invoke} (calls : ∀ f vs span, Within E (i f vs span))
    (bound : Bound) (e : Expr) : Within E (evaluateBound i bound e) :=
  (effects.within_evaluate calls e).bind effects.trans fun _ => effects.within_asNumber _ _ _

theorem within_whileTurns (span : Span) {condition : Run Bool} {body : Run Flow}
    (conditions : Within E condition) (bodies : Within E body) (turns : Nat) :
    Within E (whileTurns span condition body turns) := by
  induction turns with
  | zero =>
      simp only [whileTurns]
      refine conditions.bind effects.trans fun _ => ?_
      split
      · exact (effects.within_record _).bind effects.trans fun _ => effects.within_fail _ _
      · exact effects.within_pure _
  | succ turns ih =>
      simp only [whileTurns]
      refine conditions.bind effects.trans fun _ => ?_
      split
      · refine bodies.bind effects.trans fun flow => ?_
        cases flow with
        | next => exact ih
        | give value => exact effects.within_pure _
      · exact effects.within_pure _

theorem within_countTurns (step last : Float) {body : Float → Run Flow}
    (bodies : ∀ current, Within E (body current)) (fuel : Nat) (current : Float) :
    Within E (countTurns step last body fuel current) := by
  induction fuel generalizing current with
  | zero => exact within_exhausted
  | succ fuel ih =>
      simp only [countTurns]
      split
      · refine (bodies current).bind effects.trans fun flow => ?_
        cases flow with
        | next => exact ih _
        | give value => exact effects.within_pure _
      · exact effects.within_pure _

theorem widen {α : Type} {r : Run α} (h : Within E r) : Within S r :=
  h.mono effects.lift

end Effects

def Stmt.declared? : Stmt → Option Name
  | .declare _ name _ | .function _ name _ _ => some name
  | _ => none

/-- Only a statement that declares a name needs the wide relation. -/
def Stmt.Keeps (E S : Machine → Machine → Prop) (s : Stmt) : Machine → Machine → Prop :=
  if s.declared?.isSome then S else E

section Statements

open Run

variable {E S : Machine → Machine → Prop}

theorem Effects.widenStmt (effects : Effects E S) {s : Stmt} {r : Run Flow}
    (h : Within (s.Keeps E S) r) : Within S r := by
  unfold Stmt.Keeps at h
  split at h
  · exact h
  · exact effects.widen h

mutual

theorem Effects.within_execute_keeps (effects : Effects E S) {i : Invoke}
    (calls : ∀ f vs span, Within E (i f vs span)) (fuel : Nat) :
    (s : Stmt) → Within (s.Keeps E S) (execute i fuel s)
  | .expression value => by
      simp only [execute]
      refine (effects.within_record _).bind effects.trans fun _ => ?_
      exact (effects.within_evaluate calls value).bind effects.trans fun _ =>
        effects.within_pure _
  | .print _ value => by
      simp only [execute]
      refine (effects.within_record _).bind effects.trans fun _ => ?_
      refine (effects.within_evaluate calls value).bind effects.trans fun _ => ?_
      exact (effects.within_print _).bind effects.trans fun _ => effects.within_pure _
  | .declare _ name value => by
      simp only [execute]
      -- a name is added to the scope in use, which no expression does
      refine (effects.widen (effects.within_record _)).bind effects.stmtTrans fun _ => ?_
      refine (effects.widen (effects.within_evaluate calls value)).bind effects.stmtTrans
        fun v => ?_
      exact (effects.within_declare name v).bind effects.stmtTrans fun _ =>
        effects.widen (effects.within_pure _)
  | .block ⟨_, body⟩ => by
      simp only [execute]
      exact (effects.within_record _).bind effects.trans fun _ =>
        effects.within_inChild (effects.within_executeAll calls fuel body)
  | .branch _ condition ⟨_, body⟩ none => by
      simp only [execute]
      refine (effects.within_record _).bind effects.trans fun _ => ?_
      refine (effects.within_evaluateCondition calls condition).bind effects.trans fun _ => ?_
      split
      · exact effects.within_inChild (effects.within_executeAll calls fuel body)
      · exact effects.within_pure _
  | .branch _ condition ⟨_, body⟩ (some ⟨_, otherwise⟩) => by
      simp only [execute]
      refine (effects.within_record _).bind effects.trans fun _ => ?_
      refine (effects.within_evaluateCondition calls condition).bind effects.trans fun _ => ?_
      split
      · exact effects.within_inChild (effects.within_executeAll calls fuel body)
      · exact effects.within_inChild (effects.within_executeAll calls fuel otherwise)
  | .whileLoop _ condition ⟨_, body⟩ => by
      simp only [execute]
      refine (effects.within_record _).bind effects.trans fun _ => ?_
      exact effects.within_whileTurns _ (effects.within_evaluateCondition calls condition)
        (effects.within_inChild (effects.within_executeAll calls fuel body)) maxTurns
  | .countLoop _ counter first last ⟨_, body⟩ => by
      simp only [execute]
      refine (effects.within_record _).bind effects.trans fun _ => ?_
      refine (effects.within_evaluateBound calls .first first).bind effects.trans fun _ => ?_
      refine (effects.within_evaluateBound calls .last last).bind effects.trans fun _ => ?_
      exact effects.within_countTurns _ _
        (effects.within_withCounter counter (effects.within_executeAll calls fuel body)) fuel _
  | .function _ name parameters body => by
      simp only [execute]
      refine (effects.widen (effects.within_record _)).bind effects.stmtTrans fun _ => ?_
      refine (effects.within_closeOver _ _ _).bind effects.stmtTrans fun value => ?_
      exact (effects.within_declare name value).bind effects.stmtTrans fun _ =>
        effects.widen (effects.within_pure _)
  | .give _ value => by
      simp only [execute]
      refine (effects.within_record _).bind effects.trans fun _ => ?_
      exact (effects.within_evaluate calls value).bind effects.trans fun _ =>
        effects.within_pure _

theorem Effects.within_executeAll (effects : Effects E S) {i : Invoke}
    (calls : ∀ f vs span, Within E (i f vs span)) (fuel : Nat) :
    (ss : List Stmt) → Within S (executeAll i fuel ss)
  | [] => effects.widen (effects.within_pure _)
  | s :: rest => by
      simp only [executeAll]
      have first := effects.widenStmt (effects.within_execute_keeps calls fuel s)
      refine first.bind effects.stmtTrans fun flow => ?_
      cases flow with
      | next => exact effects.within_executeAll calls fuel rest
      | give value => exact effects.widen (effects.within_pure _)

end

theorem Effects.within_execute (effects : Effects E S) {i : Invoke}
    (calls : ∀ f vs span, Within E (i f vs span)) (fuel : Nat) (s : Stmt) :
    Within S (execute i fuel s) :=
  effects.widenStmt (effects.within_execute_keeps calls fuel s)

end Statements

/-! ## Calls -/

namespace Effects

open Run

variable {E S : Machine → Machine → Prop} (effects : Effects E S)
include effects

private theorem within_invokeBuiltin (f : Builtin) (arguments : List Value) (span : Span) :
    Within E (invokeBuiltin f arguments span) := by
  unfold invokeBuiltin
  split
  · exact effects.within_pure _
  · exact (effects.within_print _).bind effects.trans fun _ => effects.within_pure _
  · exact effects.within_fail _ _

private theorem within_guardDepth (limit : Nat) (name : String) (span : Span) :
    Within E (guardDepth limit name span) := by
  intro m
  unfold guardDepth
  split
  · exact Within.bind (R := E) effects.trans (effects.within_record _)
      (fun _ => effects.within_fail _ _) m
  · exact effects.within_pure () m

private theorem within_invokeClosure (limit : Nat) {run : List Stmt → Run Flow}
    (bodies : ∀ body, Within S (run body)) (f : Closure) (arguments : List Value) (span : Span) :
    Within E (invokeClosure limit run f arguments span) := by
  refine (effects.within_guardDepth limit f.name span).bind effects.trans fun _ m => ?_
  rw [newScope_bind]
  refine leaves_bind (P := InNew S m f.scope)
    (effects.leaves_declareAllIn _ _ (effects.inNew_start m f.scope)) (fun _ n reached => ?_)
    fun _ => effects.of_inNew
  rw [Run.duringCall_inside]
  refine leaves_bind (P := E m) ?_ (fun flow k done => done) fun _ done => done
  exact effects.leaves_inside reached (effects.within_duringCall (bodies f.body))

theorem within_invoke (limit fuel : Nat) (f : Function) (arguments : List Value) (span : Span) :
    Within E (invoke limit fuel f arguments span) := by
  induction fuel generalizing f arguments span with
  | zero => exact within_exhausted
  | succ fuel ih =>
      simp only [invoke]
      refine (effects.within_record _).bind effects.trans fun _ => ?_
      cases f with
      | builtin f => exact effects.within_invokeBuiltin f arguments span
      | closure f =>
          exact effects.within_invokeClosure limit
            (fun body => effects.within_executeAll ih fuel body) f arguments span

theorem within_runProgram (limits : Limits) (fuel : Nat) (program : Program) :
    Within S (runProgram limits fuel program) :=
  effects.within_executeAll (effects.within_invoke limits.callDepth fuel) fuel program

end Effects

/-! ## Output -/

def Machine.PrintsOn (m n : Machine) : Prop :=
  m.lines.toList <+: n.lines.toList

theorem effects_lines : Effects Machine.PrintsOn Machine.PrintsOn where
  refl m := List.prefix_rfl
  trans := List.IsPrefix.trans
  stmtTrans := List.IsPrefix.trans
  lift := id
  record m event := List.prefix_rfl
  print m line := by simp [Machine.PrintsOn]
  assign _ := List.prefix_rfl
  declare _ := List.prefix_rfl
  capture m := List.prefix_rfl
  leave outer h := h
  call h := h

end Ardoise
