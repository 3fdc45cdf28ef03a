import Ardoise.Proofs.Moments

/-!
# Two limits on the depth of calls

The limit is only looked at where a declared function is called.  So under two
limits a program does the same, up to the moment at which as many calls are in
progress as the lower one allows.  From there on the run under the higher limit
can only add to what was printed.
-/

namespace Ardoise

/-! ## Output is only added to -/

def Run.Grows {α : Type} (r : Run α) : Prop :=
  Run.Within Machine.PrintsOn r

namespace Run

variable {α β : Type}

@[grind ←] theorem Grows.bind {r : Run α} {f : α → Run β} (first : Grows r)
    (second : ∀ a, Grows (f a)) : Grows (r >>= f) :=
  Within.bind effects_lines.trans first second

@[grind ←] theorem grows_pure (a : α) : Grows (pure a : Run α) := effects_lines.within_pure a

@[grind ←] theorem grows_fail (span : Span) (fault : RuntimeFault) :
    Grows (fail span fault : Run α) :=
  effects_lines.within_fail span fault

@[grind ←] theorem grows_ofExcept (span : Span) (x : Except RuntimeFault α) :
    Grows (ofExcept span x) :=
  effects_lines.within_ofExcept span x

@[grind ←] theorem grows_record (event : Event) : Grows (record event) :=
  effects_lines.within_record event

@[grind ←] theorem grows_print (line : String) : Grows (print line) :=
  effects_lines.within_print line

@[grind ←] theorem grows_assign (name : Name) (value : Value) : Grows (assign name value) :=
  effects_lines.within_assign name value

@[grind ←] theorem grows_declare (name : Name) (value : Value) : Grows (declare name value) :=
  effects_lines.within_declare name value

@[grind ←] theorem grows_asBoolean (span : Span) (fault : String → RuntimeFault)
    (value : Value) : Grows (asBoolean span fault value) :=
  effects_lines.within_asBoolean span fault value

@[grind ←] theorem grows_asNumber (span : Span) (fault : String → RuntimeFault)
    (value : Value) : Grows (asNumber span fault value) :=
  effects_lines.within_asNumber span fault value

@[grind ←] theorem grows_asFunction (span argumentsSpan : Span) (received : Nat)
    (value : Value) : Grows (asFunction span argumentsSpan received value) :=
  effects_lines.within_asFunction span argumentsSpan received value

@[grind ←] theorem grows_asElements (span : Span) (value : Value) :
    Grows (asElements span value) :=
  effects_lines.within_asElements span value

@[grind ←] theorem Grows.inChild {r : Run α} (h : Grows r) : Grows (inChild r) :=
  effects_lines.within_inChild h

@[grind ←] theorem grows_evaluate (limit fuel : Nat) (e : Expr) :
    Grows (evaluate (invoke limit fuel) e) :=
  effects_lines.within_evaluate (effects_lines.within_invoke limit fuel) e

@[grind ←] theorem grows_evaluateAll (limit fuel : Nat) (es : List Expr) :
    Grows (evaluateAll (invoke limit fuel) es) :=
  effects_lines.within_evaluateAll (effects_lines.within_invoke limit fuel) es

@[grind ←] theorem grows_evaluateCondition (limit fuel : Nat) (e : Expr) :
    Grows (evaluateCondition (invoke limit fuel) e) :=
  effects_lines.within_evaluateCondition (effects_lines.within_invoke limit fuel) e

@[grind ←] theorem grows_evaluateBound (limit fuel : Nat) (bound : Bound) (e : Expr) :
    Grows (evaluateBound (invoke limit fuel) bound e) :=
  effects_lines.within_evaluateBound (effects_lines.within_invoke limit fuel) bound e

@[grind ←] theorem grows_executeAll (limit fuel fuel' : Nat) (ss : List Stmt) :
    Grows (executeAll (invoke limit fuel) fuel' ss) :=
  effects_lines.within_executeAll (effects_lines.within_invoke limit fuel) fuel' ss

@[grind ←] theorem grows_invoke (limit fuel : Nat) (f : Function) (arguments : List Value)
    (span : Span) : Grows (invoke limit fuel f arguments span) :=
  effects_lines.within_invoke limit fuel f arguments span

@[grind ←] theorem Grows.whileTurns (span : Span) {condition : Run Bool} {body : Run Flow}
    (conditions : Grows condition) (bodies : Grows body) (turns : Nat) :
    Grows (whileTurns span condition body turns) :=
  effects_lines.within_whileTurns span conditions bodies turns

@[grind ←] theorem grows_countTurns (counter : Name) (step last : Float) {body : Run Flow}
    (h : Grows body) (turns : Nat) (current : Float) :
    Grows (countTurns step last (withCounter counter body) turns current) :=
  effects_lines.within_countTurns step last (effects_lines.within_withCounter counter h) turns
    current

end Run

/-! ## Runs that are cut short -/

section

variable {α β : Type} {limit : Nat} {x y : Moment} {m : Machine}

/--
The two outcomes are the same, or the first run was stopped at a call, with as
many in progress as the limit allows, and the second went on from there.
-/
inductive Curtailed (limit : Nat) (x : Moment) : Outcome α → Outcome α → Prop
  | same (o : Outcome α) : Curtailed limit x o o
  | cut {o : Outcome α} {fuel : Nat} {f : Closure} {arguments : List Value} {span : Span}
      {m k : Machine}
      (path : Relation.ReflTransGen (Moment.LeadsTo limit) x
        ⟨fuel, .call (.closure f) arguments span, m⟩)
      (full : limit ≤ m.depth) (further : o.Leaves k.PrintsOn) :
      Curtailed limit x (.failed ⟨span, .callDepthExceeded limit⟩ k) o

namespace Curtailed

theorem step {o o' : Outcome α} (leads : Moment.LeadsTo limit x y) (h : Curtailed limit y o o') :
    Curtailed limit x o o' := by
  cases h with
  | same => exact .same o
  | cut path full further => exact .cut (.head leads path) full further

theorem bind {r q : Run α} {f g : α → Run β} (first : Curtailed limit x (r m) (q m))
    (grows : ∀ a, (g a).Grows)
    (second : ∀ a n, r m = .done a n → Curtailed limit x (f a n) (g a n)) :
    Curtailed limit x ((r >>= f) m) ((q >>= g) m) := by
  change Curtailed limit x (Run.bind r f m) (Run.bind q g m)
  unfold Run.bind
  generalize r m = o at first second
  generalize q m = o' at first
  cases first with
  | same =>
      cases o with
      | done a n => exact second a n rfl
      | failed => exact .same _
      | exhausted => exact .same _
  | cut path full further =>
      refine .cut path full ?_
      cases o' with
      | done a n => exact (grows a n).mono fun _ => further.trans
      | failed => exact further
      | exhausted => trivial

theorem bind_of_eq {r q : Run α} {f g : α → Run β} (same : r m = q m)
    (second : ∀ a n, r m = .done a n → Curtailed limit x (f a n) (g a n)) :
    Curtailed limit x ((r >>= f) m) ((q >>= g) m) := by
  change Curtailed limit x (Run.bind r f m) (Run.bind q g m)
  unfold Run.bind
  rw [← same]
  generalize r m = o at second
  cases o with
  | done a n => exact second a n rfl
  | failed => exact .same _
  | exhausted => exact .same _

theorem noted {f g : Unit → Run α} {event : Event}
    (h : Curtailed limit x (f () (m.note event)) (g () (m.note event))) :
    Curtailed limit x ((Run.record event >>= f) m) ((Run.record event >>= g) m) := h

theorem inside {r q : Run α} (scope : Scope)
    (h : Curtailed limit x (r { m with scope := scope }) (q { m with scope := scope })) :
    Curtailed limit x (Run.inside scope r m) (Run.inside scope q m) := by
  unfold Run.inside
  generalize r { m with scope := scope } = o at h
  generalize q { m with scope := scope } = o' at h
  cases h with
  | same => exact .same _
  | cut path full further =>
      refine .cut path full ?_
      cases o' with
      | done | failed => exact further
      | exhausted => trivial

theorem duringCall {r q : Run α} (h : Curtailed limit x (r { m with depth := m.depth + 1 })
      (q { m with depth := m.depth + 1 })) :
    Curtailed limit x (Run.duringCall r m) (Run.duringCall q m) := by
  unfold Run.duringCall
  generalize r { m with depth := m.depth + 1 } = o at h
  generalize q { m with depth := m.depth + 1 } = o' at h
  cases h with
  | same => exact .same _
  | cut path full further =>
      refine .cut path full ?_
      cases o' with
      | done | failed => exact further
      | exhausted => trivial

theorem inChild {r q : Run α} (h : Curtailed limit x (r (m.enter m.scope)) (q (m.enter m.scope))) :
    Curtailed limit x (Run.inChild r m) (Run.inChild q m) :=
  .inside (m := { m with store := (m.store.newChild m.scope).2 }) _ h

end Curtailed

end

/-! ## Expressions -/

theorem asBoolean_done {span : Span} {fault : String → RuntimeFault} {value : Value} {b : Bool}
    {m n : Machine} (h : asBoolean span fault value m = .done b n) :
    value = .boolean b ∧ n = m := by
  cases value <;> cases h
  exact ⟨rfl, rfl⟩

theorem asFunction_done {span argumentsSpan : Span} {received : Nat} {value : Value}
    {f : Function} {m n : Machine}
    (h : asFunction span argumentsSpan received value m = .done f n) :
    value = .function f ∧ f.arity = received ∧ n = m := by
  unfold asFunction at h
  split at h
  · split at h <;> cases h
    exact ⟨rfl, by assumption, rfl⟩
  · cases h

theorem asElements_done {span : Span} {value : Value} {elements : List Value} {m n : Machine}
    (h : asElements span value m = .done elements n) : value = .array elements ∧ n = m := by
  cases value <;> cases h
  exact ⟨rfl, rfl⟩

section

variable {limit higher fuel : Nat}

def CallsCurtailed (limit higher fuel : Nat) : Prop :=
  ∀ f arguments span m, Curtailed limit ⟨fuel, .call f arguments span, m⟩
    (invoke limit fuel f arguments span m) (invoke higher fuel f arguments span m)

mutual

theorem curtailed_evaluate (calls : CallsCurtailed limit higher fuel) :
    (e : Expr) → ∀ m, Curtailed limit ⟨fuel, .expression e, m⟩
      (evaluate (invoke limit fuel) e m) (evaluate (invoke higher fuel) e m)
  | .literal _ _, _ => .same _
  | .lookup _ _, _ => .same _
  | .assign _ _ value, m => by
      simp only [evaluate]
      exact .bind (.step .assigned (curtailed_evaluate calls value m)) (by grind)
        fun _ _ _ => .same _
  | .unary _ _ operand, m => by
      simp only [evaluate]
      exact .bind (.step .operand (curtailed_evaluate calls operand m)) (by grind)
        fun _ _ _ => .same _
  | .binary _ _ left right, m => by
      simp only [evaluate]
      refine .bind (.step .binaryLeft (curtailed_evaluate calls left m)) (by grind)
        fun a n first => ?_
      exact .bind (.step (.binaryRight first) (curtailed_evaluate calls right n)) (by grind)
        fun _ _ _ => .same _
  | .logical _ op _ left right, m => by
      simp only [evaluate]
      refine .bind (.step .logicalLeft (curtailed_evaluate calls left m)) (by grind)
        fun value n first => ?_
      refine .bind_of_eq rfl fun a k truth => ?_
      obtain ⟨rfl, rfl⟩ := asBoolean_done truth
      split
      · exact .same _
      · rename_i undecided
        simp only [Bool.not_eq_true] at undecided
        refine .bind (.step (.logicalRight first undecided) (curtailed_evaluate calls right k))
          (by grind) fun _ _ _ => .same _
  | .call _ _ callee arguments, m => by
      simp only [evaluate]
      refine .bind (.step .callee (curtailed_evaluate calls callee m)) (by grind)
        fun value n found => ?_
      refine .bind_of_eq rfl fun f k isFunction => ?_
      obtain ⟨rfl, agree, rfl⟩ := asFunction_done isFunction
      refine .bind (.step (.arguments found agree) (curtailed_evaluateAll calls arguments k))
        (by grind) fun values k' given => ?_
      exact .step (.call found agree given) (calls _ _ _ k')
  | .array _ elements, m => by
      simp only [evaluate]
      exact .bind (.step .elements (curtailed_evaluateAll calls elements m)) (by grind)
        fun _ _ _ => .same _
  | .index _ source position, m => by
      simp only [evaluate]
      refine .bind (.step .source (curtailed_evaluate calls source m)) (by grind)
        fun value n found => ?_
      refine .bind_of_eq rfl fun elements k isArray => ?_
      obtain ⟨rfl, rfl⟩ := asElements_done isArray
      exact .bind (.step (.position found) (curtailed_evaluate calls position k)) (by grind)
        fun _ _ _ => .same _

theorem curtailed_evaluateAll (calls : CallsCurtailed limit higher fuel) :
    (es : List Expr) → ∀ m, Curtailed limit ⟨fuel, .expressions es, m⟩
      (evaluateAll (invoke limit fuel) es m) (evaluateAll (invoke higher fuel) es m)
  | [], _ => .same _
  | e :: rest, m => by
      simp only [evaluateAll]
      refine .bind (.step .firstExpression (curtailed_evaluate calls e m)) (by grind)
        fun a n first => ?_
      exact .bind (.step (.otherExpressions first) (curtailed_evaluateAll calls rest n))
        (by grind) fun _ _ _ => .same _

end

theorem curtailed_evaluateCondition (calls : CallsCurtailed limit higher fuel) (e : Expr)
    (m : Machine) : Curtailed limit ⟨fuel, .expression e, m⟩
      (evaluateCondition (invoke limit fuel) e m) (evaluateCondition (invoke higher fuel) e m) :=
  .bind (curtailed_evaluate calls e m) (by grind) fun _ _ _ => .same _

theorem curtailed_evaluateBound (calls : CallsCurtailed limit higher fuel) (bound : Bound)
    (e : Expr) (m : Machine) : Curtailed limit ⟨fuel, .expression e, m⟩
      (evaluateBound (invoke limit fuel) bound e m)
      (evaluateBound (invoke higher fuel) bound e m) :=
  .bind (curtailed_evaluate calls e m) (by grind) fun _ _ _ => .same _

/-! ## Statements -/

theorem withCounter_eq_inChild (counter : Name) (body : Run Flow) (current : Float) :
    withCounter counter body current = Run.inChild (do
      Run.declare counter (.number current)
      body) := by
  funext m
  simp only [withCounter, Run.inChild, Run.newScope_bind]
  simp only [Run.inside, Run.declare, bind, Run.bind, Run.declareIn, Machine.enter]
  cases (m.store.newChild m.scope).2.define (m.store.newChild m.scope).1 counter.text
    (.number current) <;> rfl

private theorem curtailed_whileTurns {condition : Expr} {body : List Stmt}
    (calls : CallsCurtailed limit higher fuel)
    (bodies : ∀ m, Curtailed limit ⟨fuel, .statements body, m⟩
      (executeAll (invoke limit fuel) fuel body m) (executeAll (invoke higher fuel) fuel body m))
    (turns : Nat) (m : Machine) :
    Curtailed limit ⟨fuel, .whileTurns condition body turns, m⟩
      (whileTurns condition.span (evaluateCondition (invoke limit fuel) condition)
        (Run.inChild (executeAll (invoke limit fuel) fuel body)) turns m)
      (whileTurns condition.span (evaluateCondition (invoke higher fuel) condition)
        (Run.inChild (executeAll (invoke higher fuel) fuel body)) turns m) := by
  induction turns generalizing m with
  | zero =>
      simp only [whileTurns]
      exact .bind (.step .condition (curtailed_evaluateCondition calls condition m)) (by grind)
        fun _ _ _ => .same _
  | succ turns ih =>
      simp only [whileTurns]
      refine .bind (.step .condition (curtailed_evaluateCondition calls condition m)) (by grind)
        fun b n tested => ?_
      cases b with
      | false =>
          simp only [Bool.false_eq_true, if_false]
          exact .same _
      | true =>
          simp only [if_true]
          refine .bind (.step (.whileBody tested) (.inChild (bodies _))) (by grind)
            fun flow k ran => ?_
          cases flow with
          | next => exact .step (.whileAgain tested ran) (ih k)
          | give value =>
              dsimp only
              exact .same _

private theorem curtailed_countTurns {counter : Name} {step last : Float} {body : List Stmt}
    (bodies : ∀ m, Curtailed limit ⟨fuel, .statements body, m⟩
      (executeAll (invoke limit fuel) fuel body m) (executeAll (invoke higher fuel) fuel body m))
    (turns : Nat) (current : Float) (m : Machine) :
    Curtailed limit ⟨fuel, .countTurns counter step last body turns current, m⟩
      (countTurns step last (withCounter counter (executeAll (invoke limit fuel) fuel body))
        turns current m)
      (countTurns step last (withCounter counter (executeAll (invoke higher fuel) fuel body))
        turns current m) := by
  induction turns generalizing current m with
  | zero =>
      simp only [countTurns]
      exact .same _
  | succ turns ih =>
      simp only [countTurns]
      split
      · rename_i within
        refine .bind ?_ (by grind) fun flow n ran => ?_
        · rw [withCounter_eq_inChild, withCounter_eq_inChild]
          refine .inChild (.bind_of_eq rfl fun _ n declared => ?_)
          exact .step (.countBody within declared) (bodies n)
        · cases flow with
          | next => exact .step (.countAgain within ran) (ih _ n)
          | give value =>
              dsimp only
              exact .same _
      · exact .same _

mutual

theorem curtailed_execute (calls : CallsCurtailed limit higher fuel) :
    (s : Stmt) → ∀ m, Curtailed limit ⟨fuel, .statement s, m⟩
      (execute (invoke limit fuel) fuel s m) (execute (invoke higher fuel) fuel s m)
  | .expression value, m => by
      simp only [execute]
      refine .noted (.bind (.step (.leading rfl) (curtailed_evaluate calls value _)) (by grind) ?_)
      exact fun _ _ _ => .same _
  | .print _ value, m => by
      simp only [execute]
      refine .noted (.bind (.step (.leading rfl) (curtailed_evaluate calls value _)) (by grind) ?_)
      exact fun _ _ _ => .same _
  | .declare _ name value, m => by
      simp only [execute]
      refine .noted (.bind (.step (.leading rfl) (curtailed_evaluate calls value _)) (by grind) ?_)
      exact fun _ _ _ => .same _
  | .block ⟨_, body⟩, m => by
      simp only [execute]
      exact .noted (.step .block (.inChild (curtailed_executeAll calls body _)))
  | .branch _ condition ⟨_, body⟩ none, m => by
      simp only [execute]
      refine .noted (.bind (.step (.leading rfl) (curtailed_evaluateCondition calls condition _))
        (by grind) fun b n tested => ?_)
      cases b with
      | true => exact .step (.branchThen tested) (.inChild (curtailed_executeAll calls body _))
      | false =>
          simp only [Bool.false_eq_true, if_false]
          exact .same _
  | .branch _ condition ⟨_, body⟩ (some ⟨_, otherwise⟩), m => by
      simp only [execute]
      refine .noted (.bind (.step (.leading rfl) (curtailed_evaluateCondition calls condition _))
        (by grind) fun b n tested => ?_)
      cases b with
      | true => exact .step (.branchThen tested) (.inChild (curtailed_executeAll calls body _))
      | false =>
          exact .step (.branchElse tested) (.inChild (curtailed_executeAll calls otherwise _))
  | .whileLoop _ condition ⟨_, body⟩, m => by
      simp only [execute]
      exact .noted (.step .whileLoop
        (curtailed_whileTurns calls (curtailed_executeAll calls body) _ _))
  | .countLoop _ counter first last ⟨_, body⟩, m => by
      simp only [execute]
      refine .noted (.bind (.step (.leading rfl) (curtailed_evaluateBound calls .first first _))
        (by grind) fun a n from' => ?_)
      refine .bind (.step (.lastBound from') (curtailed_evaluateBound calls .last last n))
        (by grind) fun b k to' => ?_
      exact .step (.countLoop from' to')
        (curtailed_countTurns (curtailed_executeAll calls body) _ _ k)
  | .function _ name parameters body, m => by
      simp only [execute]
      exact .same _
  | .give _ value, m => by
      simp only [execute]
      refine .noted (.bind (.step (.leading rfl) (curtailed_evaluate calls value _)) (by grind) ?_)
      exact fun _ _ _ => .same _

theorem curtailed_executeAll (calls : CallsCurtailed limit higher fuel) :
    (ss : List Stmt) → ∀ m, Curtailed limit ⟨fuel, .statements ss, m⟩
      (executeAll (invoke limit fuel) fuel ss m) (executeAll (invoke higher fuel) fuel ss m)
  | [], _ => .same _
  | s :: rest, m => by
      simp only [executeAll]
      refine .bind (.step .firstStatement (curtailed_execute calls s m)) (by grind)
        fun flow n first => ?_
      cases flow with
      | next => exact .step (.otherStatements first) (curtailed_executeAll calls rest n)
      | give value =>
          dsimp only
          exact .same _

end

/-! ## Calls -/

theorem invokeClosure_of_le {m : Machine} {run : List Stmt → Run Flow} {f : Closure}
    {arguments : List Value} {span : Span} (full : limit ≤ m.depth) :
    invokeClosure limit run f arguments span m =
      .failed ⟨span, .callDepthExceeded limit⟩ (m.note (.callStopped f.name span)) := by
  unfold invokeClosure
  change Run.bind _ _ m = _
  unfold Run.bind
  rw [guardDepth_of_le full]

/-- What is declared in a given scope does not depend on the machine, but for its store. -/
theorem Run.declareAllIn_done {scope : Scope} {bindings : List (Name × Value)} {m n : Machine}
    (h : Run.declareAllIn scope bindings m = .done () n) :
    ∃ store, n = { m with store := store } ∧ ∀ k : Machine, k.store = m.store →
      Run.declareAllIn scope bindings k = .done () { k with store := store } := by
  induction bindings generalizing m with
  | nil =>
      cases h
      exact ⟨n.store, rfl, fun k same => by rw [← same]; rfl⟩
  | cons binding rest ih =>
      change Run.bind _ _ m = _ at h
      unfold Run.bind Run.declareIn at h
      cases defined : m.store.define scope binding.1.text binding.2 with
      | error fault =>
          rw [defined] at h
          cases h
      | ok store =>
          rw [defined] at h
          obtain ⟨store', rfl, others⟩ := ih h
          refine ⟨store', rfl, fun k same => ?_⟩
          change Run.bind _ _ k = _
          unfold Run.bind Run.declareIn
          rw [same, defined]
          exact others { k with store := store } rfl

private theorem curtailed_invoke (le : limit ≤ higher) : CallsCurtailed limit higher fuel := by
  induction fuel with
  | zero => exact fun _ _ _ _ => .same _
  | succ fuel ih =>
      intro f arguments span m
      cases f with
      | builtin f arity => exact .same _
      | closure f =>
          simp only [invoke]
          rcases Nat.lt_or_ge m.depth limit with shallow | full
          · refine .noted (.bind_of_eq ?_ fun _ n guarded => ?_)
            · rw [guardDepth_of_lt (m := m.note _) shallow,
                guardDepth_of_lt (m := m.note _) (Nat.lt_of_lt_of_le shallow le)]
            rw [guardDepth_of_lt (m := m.note _) shallow] at guarded
            cases guarded
            refine .bind_of_eq rfl fun scope n opened => ?_
            cases opened
            refine .bind_of_eq rfl fun _ n declared => ?_
            obtain ⟨store, rfl, declares⟩ := Run.declareAllIn_done declared
            -- the body is run on the same machine as if the scope had been entered at once
            have leads : Moment.LeadsTo limit ⟨fuel + 1, .call (.closure f) arguments span, m⟩
                ⟨fuel, .statements f.body, _⟩ :=
              .callBody (guardDepth_of_lt (m := m.note _) shallow)
                (declares ((m.note (.calling f.name arguments.length)).deepen.enter f.scope) rfl)
            refine .bind (.duringCall (.inside _ (.step leads ?_))) (by grind) fun _ _ _ => .same _
            exact curtailed_executeAll ih f.body _
          · have further := Run.grows_invoke higher (fuel + 1) (.closure f) arguments span m
            simp only [invoke] at further
            refine .noted ?_
            rw [invokeClosure_of_le (m := m.note _) full]
            exact .cut .refl full further

theorem curtailed_runProgram {limits : Limits} (le : limits.callDepth ≤ higher) (fuel : Nat)
    (program : Program) (m : Machine) :
    Curtailed limits.callDepth ⟨fuel, .statements program, m⟩ (runProgram limits fuel program m)
      (runProgram { limits with callDepth := higher } fuel program m) :=
  curtailed_executeAll (curtailed_invoke le) program m

end

end Ardoise
