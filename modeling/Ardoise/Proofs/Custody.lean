import Ardoise.Proofs.Curtailed
import Ardoise.Proofs.Provenance
import Ardoise.Session

/-!
# What a run has in hand

Some things are true of a machine only in the light of what went before: which
closures were made so far, or which scopes stand inside which.  An account of that
goes along with the run, and it only grows.  It says which functions may be held
at all, in variables, as arguments or as results.  `Custody.Kept` lists the steps
that evaluation is made of, each with what it does to the account; the theorems
below carry the account through whole runs, also through those that fail, and to
every moment on the way.
-/

namespace Ardoise

/-- An account of what runs have in hand. -/
structure Custody (W : Type) where
  later : W → W → Prop
  /-- The functions that may be held. -/
  owns : W → Function → Prop
  /-- The machines that the account is true of. -/
  fits : W → Machine → Prop

namespace Custody

variable {W : Type}

def Has (C : Custody W) (w : W) (value : Value) : Prop :=
  value.Holds (C.owns w)

/--
The account is kept by the steps of a run that comes to no other moments than those
that it `visits`.
-/
structure Kept (C : Custody W) (limit : Nat) (visits : Moment → Prop) : Prop where
  refl (w : W) : C.later w w
  trans {u v w : W} : C.later u v → C.later v w → C.later u w
  visited {x y : Moment} : Moment.LeadsTo limit x y → visits x → visits y
  mono {v w : W} {f : Function} : C.later v w → C.owns v f → C.owns w f
  quiet {w : W} {m : Machine} (depth : Nat) (lines : Array String) (journal : Array Event) :
    C.fits w m → C.fits w { m with depth := depth, lines := lines, journal := journal }
  get {w : W} {m : Machine} {name : String} {value : Value} :
    C.fits w m → m.store.get m.scope name = .ok value → C.Has w value
  assign {w : W} {m : Machine} {name : String} {value : Value} {store : Store} :
    C.fits w m → C.Has w value → m.store.assign m.scope name value = .ok store →
      C.fits w { m with store := store }
  declare {w : W} {m : Machine} {name : String} {value : Value} {store : Store} :
    C.fits w m → C.Has w value → m.store.define m.scope name value = .ok store →
      C.fits w { m with store := store }
  make {w : W} {m : Machine} (name : String) (parameters : List Name) (body : List Stmt) :
    C.fits w m → ∃ w', C.later w w' ∧
      C.owns w' (.closure ⟨m.closures, name, parameters.length, parameters, body, m.scope⟩) ∧
      C.fits w' { m with captured := m.scope :: m.captured, closures := m.closures + 1 }
  enter {w : W} {m : Machine} : C.fits w m → ∃ w', C.later w w' ∧ C.fits w' (m.enter m.scope)
  call {w : W} {m : Machine} {fuel : Nat} {f : Closure} {arguments : List Value} {span : Span} :
    visits ⟨fuel + 1, .call (.closure f) arguments span, m⟩ → C.fits w m →
      C.owns w (.closure f) → ∃ w', C.later w w' ∧ C.fits w' (m.enter f.scope)
  leave {v w : W} {m n : Machine} :
    C.fits v m → C.later v w → C.fits w n → C.fits w { n with scope := m.scope }

def Covers {α : Type} (C : Custody W) (w : W) (Q : W → α → Prop) : Outcome α → Prop
  | .done a n => ∃ w', C.later w w' ∧ C.fits w' n ∧ Q w' a
  | .failed _ n => ∃ w', C.later w w' ∧ C.fits w' n
  | .exhausted => True

def InHand (C : Custody W) (w : W) : Task → Prop
  | .call f arguments _ => C.owns w f ∧ ∀ value ∈ arguments, C.Has w value
  | _ => True

def HasFlow (C : Custody W) (w : W) : Flow → Prop
  | .next => True
  | .give value => C.Has w value

variable {C : Custody W} {v w : W}

theorem Has.plain {value : Value} (plain : value.Plain) : C.Has w value :=
  Value.Holds.plain plain

theorem Covers.noted {α : Type} {Q : W → α → Prop} {f : Unit → Run α} {event : Event}
    {m : Machine} (h : C.Covers w Q (f () (m.note event))) :
    C.Covers w Q ((Run.record event >>= f) m) := h

theorem HasFlow.result {flow : Flow} (h : C.HasFlow w flow) : C.Has w flow.result := by
  cases flow with
  | next => exact .plain .void
  | give value => exact h

theorem Covers.of_done {α : Type} {Q : W → α → Prop} {o : Outcome α} {a : α} {n : Machine}
    (h : C.Covers w Q o) (done : o = .done a n) : ∃ w', C.later w w' ∧ C.fits w' n ∧ Q w' a := by
  rw [done] at h
  exact h

theorem Covers.leaves {α : Type} {Q : W → α → Prop} {o : Outcome α} (h : C.Covers w Q o)
    {P : Machine → Prop} (fits : ∀ w' n, C.later w w' → C.fits w' n → P n) : o.Leaves P := by
  cases o with
  | done a n =>
      obtain ⟨w', later, reached, _⟩ := h
      exact fits w' n later reached
  | failed fault n =>
      obtain ⟨w', later, reached⟩ := h
      exact fits w' n later reached
  | exhausted => trivial

namespace Kept

variable {limit : Nat} {visits : Moment → Prop} (kept : C.Kept limit visits)
  {α β : Type} {P : W → α → Prop} {Q : W → β → Prop} {m n : Machine}
include kept

theorem has_mono {value : Value} (later : C.later v w) (h : C.Has v value) : C.Has w value :=
  Value.Holds.mono (fun _ => kept.mono later) h

theorem pure {a : α} (fits : C.fits w m) (h : P w a) : C.Covers w P ((Pure.pure a : Run α) m) :=
  ⟨w, kept.refl w, fits, h⟩

theorem fail (fits : C.fits w m) (span : Span) (fault : RuntimeFault) :
    C.Covers w P (Run.fail span fault m) :=
  ⟨w, kept.refl w, fits⟩

theorem ofExcept (fits : C.fits w m) (span : Span) {x : Except RuntimeFault α}
    (good : ∀ a, x = .ok a → P w a) : C.Covers w P (Run.ofExcept span x m) := by
  cases x with
  | ok a => exact kept.pure fits (good a rfl)
  | error fault => exact kept.fail fits span fault

theorem bind {r : Run α} {f : α → Run β} (first : C.Covers w P (r m))
    (second : ∀ a n w', r m = .done a n → C.later w w' → C.fits w' n → P w' a →
      C.Covers w' Q (f a n)) : C.Covers w Q ((r >>= f) m) := by
  change C.Covers w Q (Run.bind r f m)
  unfold Run.bind
  cases ran : r m with
  | failed fault n =>
      rw [ran] at first
      exact first
  | exhausted => trivial
  | done a n =>
      obtain ⟨v, later, fits, has⟩ := first.of_done ran
      have rest := second a n v ran later fits has
      dsimp only
      cases goes : f a n with
      | done b k =>
          obtain ⟨w', later', reached⟩ := rest.of_done goes
          exact ⟨w', kept.trans later later', reached⟩
      | failed fault k =>
          rw [goes] at rest
          obtain ⟨w', later', reached⟩ := rest
          exact ⟨w', kept.trans later later', reached⟩
      | exhausted => trivial

theorem noted (fits : C.fits w m) (event : Event) : C.fits w (m.note event) :=
  kept.quiet m.depth m.lines _ fits

theorem deepened (fits : C.fits w m) (depth : Nat) : C.fits w { m with depth := depth } :=
  kept.quiet depth m.lines m.journal fits

theorem print (fits : C.fits w m) (line : String) :
    C.Covers w (fun _ _ => True) (Run.print line m) :=
  ⟨w, kept.refl w, kept.quiet m.depth _ m.journal fits, trivial⟩

theorem lookup (fits : C.fits w m) (name : Name) : C.Covers w C.Has (Run.lookup name m) := by
  unfold Run.lookup
  split
  · rename_i found
    exact ⟨w, kept.refl w, fits, kept.get fits found⟩
  · exact ⟨w, kept.refl w, fits⟩

theorem assigned (fits : C.fits w m) (name : Name) {value : Value} (has : C.Has w value) :
    C.Covers w (fun _ _ => True) (Run.assign name value m) := by
  unfold Run.assign
  split
  · rename_i done
    exact ⟨w, kept.refl w, kept.assign fits has done, trivial⟩
  · exact ⟨w, kept.refl w, fits⟩

theorem declared (fits : C.fits w m) (name : Name) {value : Value} (has : C.Has w value) :
    C.Covers w (fun _ _ => True) (Run.declare name value m) := by
  unfold Run.declare Run.declareIn
  split
  · rename_i done
    exact ⟨w, kept.refl w, kept.declare fits has done, trivial⟩
  · exact ⟨w, kept.refl w, fits⟩

theorem declaredAll (fits : C.fits w m) {scope : Scope} (current : m.scope = scope)
    (names : List Name) {values : List Value} (has : ∀ value ∈ values, C.Has w value) :
    C.Covers w (fun _ _ => True) (Run.declareAllIn scope (names.zip values) m) := by
  subst current
  induction names generalizing values m with
  | nil => exact kept.pure fits trivial
  | cons name names ih =>
      cases values with
      | nil => exact kept.pure fits trivial
      | cons value values =>
          rw [List.forall_mem_cons] at has
          simp only [List.zip_cons_cons, Run.declareAllIn]
          change C.Covers w _ (Run.bind (Run.declareIn m.scope name value) _ m)
          unfold Run.bind Run.declareIn
          split
          · rename_i done
            split at done
            · rename_i store defined
              cases done
              exact ih (kept.declare fits has.1 defined) has.2
            · cases done
          · rename_i done
            split at done <;> cases done
            exact ⟨w, kept.refl w, fits⟩
          · trivial

theorem inNew {r : Run α} {outer : Scope} (fits : C.fits w m)
    (opened : ∃ w', C.later w w' ∧ C.fits w' (m.enter outer))
    (body : ∀ w', C.later w w' → C.fits w' (m.enter outer) → C.Covers w' P (r (m.enter outer))) :
    C.Covers w P (Run.inside (m.enter outer).scope r
      { m with store := (m.store.newChild outer).2 }) := by
  obtain ⟨v, later, entered⟩ := opened
  have inner : C.Covers v P (r { { m with store := (m.store.newChild outer).2 } with
      scope := (m.enter outer).scope }) := body v later entered
  unfold Run.inside
  generalize r { { m with store := (m.store.newChild outer).2 } with
    scope := (m.enter outer).scope } = o at inner
  cases o with
  | done a n =>
      obtain ⟨w', later', reached, has⟩ := inner
      have onwards := kept.trans later later'
      have back := kept.leave fits onwards reached
      exact ⟨w', onwards, back, has⟩
  | failed fault n =>
      obtain ⟨w', later', reached⟩ := inner
      have onwards := kept.trans later later'
      have back := kept.leave fits onwards reached
      exact ⟨w', onwards, back⟩
  | exhausted => trivial

theorem inChild {r : Run α} (fits : C.fits w m)
    (body : ∀ w', C.later w w' → C.fits w' (m.enter m.scope) →
      C.Covers w' P (r (m.enter m.scope))) : C.Covers w P (Run.inChild r m) :=
  kept.inNew fits (kept.enter fits) body

theorem duringCall {r : Run α} (body : C.Covers w P (r m.deepen)) :
    C.Covers w P (Run.duringCall r m) := by
  unfold Machine.deepen at body
  unfold Run.duringCall
  generalize r { m with depth := m.depth + 1 } = o at body
  cases o with
  | done a n =>
      obtain ⟨w', later, reached, has⟩ := body
      exact ⟨w', later, kept.deepened reached _, has⟩
  | failed fault n =>
      obtain ⟨w', later, reached⟩ := body
      exact ⟨w', later, kept.deepened reached _⟩
  | exhausted => trivial

/-! ## Expressions -/

theorem asBoolean (fits : C.fits w m) (span : Span) (fault : String → RuntimeFault)
    (value : Value) : C.Covers w (fun _ _ => True) (Ardoise.asBoolean span fault value m) := by
  unfold Ardoise.asBoolean
  split
  · exact kept.pure fits trivial
  · exact kept.fail fits _ _

theorem asNumber (fits : C.fits w m) (span : Span) (fault : String → RuntimeFault)
    (value : Value) : C.Covers w (fun _ _ => True) (Ardoise.asNumber span fault value m) := by
  unfold Ardoise.asNumber
  split
  · exact kept.pure fits trivial
  · exact kept.fail fits _ _

theorem asFunction (fits : C.fits w m) (span argumentsSpan : Span) (received : Nat)
    {value : Value} (has : C.Has w value) :
    C.Covers w C.owns (Ardoise.asFunction span argumentsSpan received value m) := by
  cases has with
  | plain plain => cases plain <;> exact kept.fail fits _ _
  | array each => exact kept.fail fits _ _
  | function owned =>
      simp only [Ardoise.asFunction]
      split
      · exact kept.pure fits owned
      · exact kept.fail fits _ _

theorem asElements (fits : C.fits w m) (span : Span) {value : Value} (has : C.Has w value) :
    C.Covers w (fun w values => ∀ value ∈ values, C.Has w value)
      (Ardoise.asElements span value m) := by
  cases has with
  | plain plain => cases plain <;> exact kept.fail fits _ _
  | array each => exact kept.pure fits each
  | function owned => exact kept.fail fits _ _

end Kept

def Calls (C : Custody W) (limit : Nat) (visits : Moment → Prop) (fuel : Nat) : Prop :=
  ∀ {f arguments span w m}, visits ⟨fuel, .call f arguments span, m⟩ → C.fits w m →
    C.InHand w (.call f arguments span) → C.Covers w C.Has (invoke limit fuel f arguments span m)

section Evaluation

variable {limit fuel : Nat} {visits : Moment → Prop}

mutual

theorem Kept.evaluate (kept : C.Kept limit visits) (calls : C.Calls limit visits fuel) :
    (e : Expr) → ∀ {w m}, visits ⟨fuel, .expression e, m⟩ → C.fits w m →
      C.Covers w C.Has (Ardoise.evaluate (invoke limit fuel) e m)
  | .literal _ value, w, m, _, fits => by
      simp only [Ardoise.evaluate]
      exact kept.pure fits (.plain (.ofLiteral value))
  | .lookup _ name, w, m, _, fits => by
      simp only [Ardoise.evaluate]
      exact kept.lookup fits name
  | .assign _ target value, w, m, here, fits => by
      simp only [Ardoise.evaluate]
      refine kept.bind (kept.evaluate calls value (kept.visited .assigned here) fits)
        fun a n w' _ _ fits has => ?_
      exact kept.bind (kept.assigned fits target has) fun _ _ _ _ later fits _ =>
        kept.pure fits (kept.has_mono later has)
  | .unary span op operand, w, m, here, fits => by
      simp only [Ardoise.evaluate]
      exact kept.bind (kept.evaluate calls operand (kept.visited .operand here) fits)
        fun _ _ _ _ _ fits _ => kept.ofExcept fits span
          fun _ applied => .plain (Value.plain_of_unary applied)
  | .binary span op left right, w, m, here, fits => by
      simp only [Ardoise.evaluate]
      refine kept.bind (kept.evaluate calls left (kept.visited .binaryLeft here) fits)
        fun a n w' first _ fits _ => ?_
      exact kept.bind (kept.evaluate calls right (kept.visited (.binaryRight first) here) fits)
        fun _ _ _ _ _ fits _ => kept.ofExcept fits span
          fun _ applied => .plain (Value.plain_of_binary applied)
  | .logical _ op spelling left right, w, m, here, fits => by
      simp only [Ardoise.evaluate]
      refine kept.bind (kept.evaluate calls left (kept.visited .logicalLeft here) fits)
        fun value n _ first _ reached _ => ?_
      refine kept.bind (kept.asBoolean reached _ _ value) fun a k _ truth _ fits _ => ?_
      obtain ⟨rfl, rfl⟩ := asBoolean_done truth
      split
      · exact kept.pure fits (.plain (.boolean a))
      · rename_i undecided
        simp only [Bool.not_eq_true] at undecided
        have next := kept.visited (.logicalRight first undecided) here
        refine kept.bind (kept.evaluate calls right next fits) fun _ _ _ _ _ fits _ => ?_
        exact kept.bind (kept.asBoolean fits _ _ _) fun b _ _ _ _ fits _ =>
          kept.pure fits (.plain (.boolean b))
  | .call span argumentsSpan callee arguments, w, m, here, fits => by
      simp only [Ardoise.evaluate]
      refine kept.bind (kept.evaluate calls callee (kept.visited .callee here) fits)
        fun value n _ found _ reached has => ?_
      refine kept.bind (kept.asFunction reached _ _ _ has)
        fun f k _ isFunction _ fits owned => ?_
      obtain ⟨rfl, agree, rfl⟩ := asFunction_done isFunction
      have next := kept.visited (.arguments found agree) here
      refine kept.bind (kept.evaluateAll calls arguments next fits)
        fun values k' w' given later fits each => ?_
      exact calls (kept.visited (.call found agree given) here) fits ⟨kept.mono later owned, each⟩
  | .array _ elements, w, m, here, fits => by
      simp only [Ardoise.evaluate]
      exact kept.bind (kept.evaluateAll calls elements (kept.visited .elements here) fits)
        fun _ _ _ _ _ fits each => kept.pure fits (.array each)
  | .index _ source position, w, m, here, fits => by
      simp only [Ardoise.evaluate]
      refine kept.bind (kept.evaluate calls source (kept.visited .source here) fits)
        fun value n _ found _ reached has => ?_
      refine kept.bind (kept.asElements reached _ has) fun elements k _ isArray _ fits each => ?_
      obtain ⟨rfl, rfl⟩ := asElements_done isArray
      have next := kept.visited (.position found) here
      refine kept.bind (kept.evaluate calls position next fits) fun _ _ _ _ later fits _ => ?_
      refine kept.bind (kept.asNumber fits _ _ _) fun index _ _ _ later' fits _ => ?_
      refine kept.ofExcept fits _ fun value found => ?_
      exact kept.has_mono (kept.trans later later') (each value (mem_of_elementAt found))

theorem Kept.evaluateAll (kept : C.Kept limit visits) (calls : C.Calls limit visits fuel) :
    (es : List Expr) → ∀ {w m}, visits ⟨fuel, .expressions es, m⟩ → C.fits w m →
      C.Covers w (fun w values => ∀ value ∈ values, C.Has w value)
        (Ardoise.evaluateAll (invoke limit fuel) es m)
  | [], w, m, _, fits => by
      simp only [Ardoise.evaluateAll]
      exact kept.pure fits (by simp)
  | e :: rest, w, m, here, fits => by
      simp only [Ardoise.evaluateAll]
      refine kept.bind (kept.evaluate calls e (kept.visited .firstExpression here) fits)
        fun a n w' first _ fits has => ?_
      have next := kept.visited (.otherExpressions first) here
      refine kept.bind (kept.evaluateAll calls rest next fits) fun _ _ _ _ later fits each => ?_
      exact kept.pure fits (List.forall_mem_cons.mpr ⟨kept.has_mono later has, each⟩)

end

theorem Kept.evaluateCondition (kept : C.Kept limit visits) (calls : C.Calls limit visits fuel)
    {e : Expr} {m : Machine} (here : visits ⟨fuel, .expression e, m⟩) (fits : C.fits w m) :
    C.Covers w (fun _ _ => True) (Ardoise.evaluateCondition (invoke limit fuel) e m) :=
  kept.bind (kept.evaluate calls e here fits) fun _ _ _ _ _ fits _ => kept.asBoolean fits _ _ _

theorem Kept.evaluateBound (kept : C.Kept limit visits) (calls : C.Calls limit visits fuel)
    (bound : Bound) {e : Expr} {m : Machine} (here : visits ⟨fuel, .expression e, m⟩)
    (fits : C.fits w m) :
    C.Covers w (fun _ _ => True) (Ardoise.evaluateBound (invoke limit fuel) bound e m) :=
  kept.bind (kept.evaluate calls e here fits) fun _ _ _ _ _ fits _ => kept.asNumber fits _ _ _

/-! ## Statements -/

theorem Kept.whileTurns (kept : C.Kept limit visits) (calls : C.Calls limit visits fuel)
    {condition : Expr} {body : List Stmt}
    (bodies : ∀ {w m}, visits ⟨fuel, .statements body, m⟩ → C.fits w m →
      C.Covers w C.HasFlow (executeAll (invoke limit fuel) fuel body m))
    (turns : Nat) {m : Machine} (here : visits ⟨fuel, .whileTurns condition body turns, m⟩)
    (fits : C.fits w m) :
    C.Covers w C.HasFlow (Ardoise.whileTurns condition.span
      (Ardoise.evaluateCondition (invoke limit fuel) condition)
      (Run.inChild (executeAll (invoke limit fuel) fuel body)) turns m) := by
  induction turns generalizing w m with
  | zero =>
      simp only [Ardoise.whileTurns]
      refine kept.bind (kept.evaluateCondition calls (kept.visited .condition here) fits)
        fun b n w' _ _ fits _ => ?_
      cases b with
      | false => exact kept.pure fits trivial
      | true => exact kept.fail (kept.noted fits (.loopStopped condition.span)) _ _
  | succ turns ih =>
      simp only [Ardoise.whileTurns]
      refine kept.bind (kept.evaluateCondition calls (kept.visited .condition here) fits)
        fun b n w' holds _ fits _ => ?_
      cases b with
      | false => exact kept.pure fits trivial
      | true =>
          simp only [if_true]
          have turn := kept.visited (.whileBody holds) here
          refine kept.bind (kept.inChild fits fun _ _ entered => bodies turn entered)
            fun flow k w' ran _ fits has => ?_
          cases flow with
          | next => exact ih (kept.visited (.whileAgain holds ran) here) fits
          | give value => exact kept.pure fits has

theorem Kept.withCounter (kept : C.Kept limit visits) {counter : Name} {step last : Float}
    {body : List Stmt} {turns : Nat} {current : Float}
    (bodies : ∀ {w m}, visits ⟨fuel, .statements body, m⟩ → C.fits w m →
      C.Covers w C.HasFlow (executeAll (invoke limit fuel) fuel body m))
    (inBounds : withinBounds step last current = true) {m : Machine}
    (here : visits ⟨fuel, .countTurns counter step last body (turns + 1) current, m⟩)
    (fits : C.fits w m) :
    C.Covers w C.HasFlow
      (Ardoise.withCounter counter (executeAll (invoke limit fuel) fuel body) current m) := by
  rw [withCounter_eq_inChild]
  refine kept.inChild fits fun w' _ entered => ?_
  refine kept.bind (kept.declared entered counter (.plain (.number current)))
    fun _ n w' done _ fits _ => ?_
  exact bodies (kept.visited (.countBody inBounds done) here) fits

theorem Kept.countTurns (kept : C.Kept limit visits) {counter : Name} {step last : Float}
    {body : List Stmt}
    (bodies : ∀ {w m}, visits ⟨fuel, .statements body, m⟩ → C.fits w m →
      C.Covers w C.HasFlow (executeAll (invoke limit fuel) fuel body m))
    (turns : Nat) {current : Float} {m : Machine}
    (here : visits ⟨fuel, .countTurns counter step last body turns current, m⟩)
    (fits : C.fits w m) :
    C.Covers w C.HasFlow (Ardoise.countTurns step last
      (Ardoise.withCounter counter (executeAll (invoke limit fuel) fuel body)) turns current
        m) := by
  induction turns generalizing w m current with
  | zero => trivial
  | succ turns ih =>
      simp only [Ardoise.countTurns]
      split
      · rename_i inBounds
        refine kept.bind (kept.withCounter bodies inBounds here fits)
          fun flow n w' ran _ fits has => ?_
        cases flow with
        | next => exact ih (kept.visited (.countAgain inBounds ran) here) fits
        | give value => exact kept.pure fits has
      · exact kept.pure fits trivial

mutual

theorem Kept.execute (kept : C.Kept limit visits) (calls : C.Calls limit visits fuel) :
    (s : Stmt) → ∀ {w m}, visits ⟨fuel, .statement s, m⟩ → C.fits w m →
      C.Covers w C.HasFlow (Ardoise.execute (invoke limit fuel) fuel s m)
  | .expression value, w, m, here, fits => by
      simp only [Ardoise.execute]
      refine .noted ?_
      have next := kept.visited (.leading rfl) here
      exact kept.bind (kept.evaluate calls value next (kept.noted fits _))
        fun _ _ _ _ _ fits _ => kept.pure fits trivial
  | .print _ value, w, m, here, fits => by
      simp only [Ardoise.execute]
      refine .noted ?_
      have next := kept.visited (.leading rfl) here
      refine kept.bind (kept.evaluate calls value next (kept.noted fits _))
        fun _ _ _ _ _ fits _ => ?_
      exact kept.bind (kept.print fits _) fun _ _ _ _ _ fits _ => kept.pure fits trivial
  | .declare _ name value, w, m, here, fits => by
      simp only [Ardoise.execute]
      refine .noted ?_
      have next := kept.visited (.leading rfl) here
      refine kept.bind (kept.evaluate calls value next (kept.noted fits _))
        fun _ _ _ _ _ fits has => ?_
      exact kept.bind (kept.declared fits name has) fun _ _ _ _ _ fits _ => kept.pure fits trivial
  | .block ⟨_, body⟩, w, m, here, fits => by
      simp only [Ardoise.execute]
      refine .noted ?_
      exact kept.inChild (kept.noted fits _) fun _ _ entered =>
        kept.executeAll calls body (kept.visited .block here) entered
  | .branch _ condition ⟨_, body⟩ none, w, m, here, fits => by
      simp only [Ardoise.execute]
      refine .noted ?_
      have next := kept.visited (.leading rfl) here
      refine kept.bind (kept.evaluateCondition calls next (kept.noted fits _))
        fun b n w' tested _ fits _ => ?_
      cases b with
      | true =>
          exact kept.inChild fits fun _ _ entered =>
            kept.executeAll calls body (kept.visited (.branchThen tested) here) entered
      | false => exact kept.pure fits trivial
  | .branch _ condition ⟨_, body⟩ (some ⟨_, otherwise⟩), w, m, here, fits => by
      simp only [Ardoise.execute]
      refine .noted ?_
      have next := kept.visited (.leading rfl) here
      refine kept.bind (kept.evaluateCondition calls next (kept.noted fits _))
        fun b n w' tested _ fits _ => ?_
      cases b with
      | true =>
          exact kept.inChild fits fun _ _ entered =>
            kept.executeAll calls body (kept.visited (.branchThen tested) here) entered
      | false =>
          exact kept.inChild fits fun _ _ entered =>
            kept.executeAll calls otherwise (kept.visited (.branchElse tested) here) entered
  | .whileLoop _ condition ⟨_, body⟩, w, m, here, fits => by
      simp only [Ardoise.execute]
      refine .noted ?_
      exact kept.whileTurns calls (kept.executeAll calls body) maxTurns
        (kept.visited .whileLoop here) (kept.noted fits _)
  | .countLoop _ counter first last ⟨_, body⟩, w, m, here, fits => by
      simp only [Ardoise.execute]
      refine .noted ?_
      have next := kept.visited (.leading rfl) here
      refine kept.bind (kept.evaluateBound calls .first next (kept.noted fits _))
        fun a n w' from' _ fits _ => ?_
      refine kept.bind (kept.evaluateBound calls .last (kept.visited (.lastBound from') here) fits)
        fun b k w' to' _ fits _ => ?_
      exact kept.countTurns (kept.executeAll calls body) fuel
        (kept.visited (.countLoop from' to') here) fits
  | .function _ name parameters body, w, m, here, fits => by
      simp only [Ardoise.execute]
      refine .noted ?_
      obtain ⟨w', later, owned, made⟩ :=
        kept.make name.text parameters body (kept.noted fits (.executing _))
      have closed : C.Covers w C.Has (Run.closeOver name.text parameters body (m.note _)) :=
        ⟨w', later, made, .function owned⟩
      refine kept.bind closed fun _ _ _ _ _ fits has => ?_
      exact kept.bind (kept.declared fits name has) fun _ _ _ _ _ fits _ => kept.pure fits trivial
  | .give _ value, w, m, here, fits => by
      simp only [Ardoise.execute]
      refine .noted ?_
      have next := kept.visited (.leading rfl) here
      exact kept.bind (kept.evaluate calls value next (kept.noted fits _))
        fun _ _ _ _ _ fits has => kept.pure fits has

theorem Kept.executeAll (kept : C.Kept limit visits) (calls : C.Calls limit visits fuel) :
    (ss : List Stmt) → ∀ {w m}, visits ⟨fuel, .statements ss, m⟩ → C.fits w m →
      C.Covers w C.HasFlow (Ardoise.executeAll (invoke limit fuel) fuel ss m)
  | [], w, m, _, fits => by
      simp only [Ardoise.executeAll]
      exact kept.pure fits trivial
  | s :: rest, w, m, here, fits => by
      simp only [Ardoise.executeAll]
      refine kept.bind (kept.execute calls s (kept.visited .firstStatement here) fits)
        fun flow n w' first _ fits has => ?_
      cases flow with
      | next => exact kept.executeAll calls rest (kept.visited (.otherStatements first) here) fits
      | give value => exact kept.pure fits has

end

/-! ## Calls -/

theorem Kept.invokeBuiltin (kept : C.Kept limit visits) {m : Machine} (fits : C.fits w m)
    (f : Builtin) (arguments : List Value) (span : Span) :
    C.Covers w C.Has (Ardoise.invokeBuiltin f arguments span m) := by
  unfold Ardoise.invokeBuiltin
  cases answer : f.apply arguments with
  | gives value => exact kept.pure fits (.plain (Builtin.plain_of_apply answer))
  | prints line =>
      exact kept.bind (kept.print fits line) fun _ _ _ _ _ fits _ => kept.pure fits (.plain .void)
  | refuses reason => exact kept.fail fits _ _

end Evaluation

end Custody

/-- Names may as well be declared in a scope before it is made current as afterwards. -/
theorem Run.declareAllIn_inside {α : Type} (target scope : Scope) (bindings : List (Name × Value))
    (r : Run α) :
    (do declareAllIn target bindings; inside scope r) =
      inside scope (do declareAllIn target bindings; r) := by
  funext m
  induction bindings generalizing m with
  | nil => rfl
  | cons binding rest ih =>
      cases defined : m.store.define target binding.1.text binding.2 with
      | error fault => simp [declareAllIn, inside, bind, Run.bind, declareIn, defined]
      | ok store =>
          have further := ih { m with store := store }
          simp only [inside, bind, Run.bind] at further
          simp only [declareAllIn, inside, bind, Run.bind, declareIn, defined]
          exact further

private theorem invokeClosure_of_lt {limit : Nat} {m : Machine} (shallow : m.depth < limit)
    (run : List Stmt → Run Flow) (f : Closure) (arguments : List Value) (span : Span) :
    invokeClosure limit run f arguments span m =
      (do
        let flow ← Run.inside (m.enter f.scope).scope (do
          Run.declareAllIn (m.enter f.scope).scope (f.parameters.zip arguments)
          Run.duringCall (run f.body))
        return flow.result) { m with store := (m.store.newChild f.scope).2 } := by
  rw [← Run.declareAllIn_inside, ← Run.duringCall_inside]
  unfold invokeClosure
  change Run.bind _ _ m = _
  unfold Run.bind
  rw [guardDepth_of_lt shallow]
  dsimp only
  rw [Run.newScope_bind]
  simp only [bind, Run.bind]
  cases Run.declareAllIn (m.enter f.scope).scope (f.parameters.zip arguments)
    { m with store := (m.store.newChild f.scope).2 } <;> rfl

namespace Custody

variable {W : Type} {C : Custody W} {w : W} {limit : Nat} {visits : Moment → Prop}

theorem Kept.invokeClosure (kept : C.Kept limit visits) {fuel : Nat}
    (calls : C.Calls limit visits fuel) {f : Closure} {arguments : List Value} {span : Span}
    {m : Machine} (here : visits ⟨fuel + 1, .call (.closure f) arguments span, m⟩)
    (fits : C.fits w m) (owned : C.owns w (.closure f))
    (each : ∀ value ∈ arguments, C.Has w value) :
    C.Covers w C.Has (Ardoise.invokeClosure limit (Ardoise.executeAll (invoke limit fuel) fuel) f
      arguments span (m.note (.calling f.name arguments.length))) := by
  have ready := kept.noted fits (.calling f.name arguments.length)
  rcases Nat.lt_or_ge m.depth limit with shallow | full
  · rw [invokeClosure_of_lt (m := m.note _) shallow]
    obtain ⟨v, later, entered⟩ := kept.call here fits owned
    have opened : ∃ v, C.later w v ∧
        C.fits v ((m.note (.calling f.name arguments.length)).enter f.scope) :=
      ⟨v, later, kept.noted entered _⟩
    refine kept.bind (P := C.HasFlow) (kept.inNew ready opened fun v later entered => ?_)
      fun flow _ _ _ _ fits has => kept.pure fits has.result
    have given : ∀ value ∈ arguments, C.Has v value :=
      fun value member => kept.has_mono later (each value member)
    refine kept.bind (kept.declaredAll entered rfl f.parameters given)
      fun _ n v' declared _ fits _ => ?_
    obtain ⟨store, rfl, declares⟩ := Run.declareAllIn_done declared
    have leads : Moment.LeadsTo limit ⟨fuel + 1, .call (.closure f) arguments span, m⟩
        ⟨fuel, .statements f.body, _⟩ :=
      .callBody (guardDepth_of_lt (m := m.note _) shallow)
        (declares ((m.note (.calling f.name arguments.length)).deepen.enter f.scope) rfl)
    exact kept.duringCall
      (kept.executeAll calls f.body (kept.visited leads here) (kept.deepened fits _))
  · rw [invokeClosure_of_le (m := m.note _) full]
    exact ⟨w, kept.refl w, kept.noted ready _⟩

theorem Kept.invoke (kept : C.Kept limit visits) (fuel : Nat) : C.Calls limit visits fuel := by
  induction fuel with
  | zero => exact fun _ _ _ => trivial
  | succ fuel ih =>
      intro f arguments span w m here fits held
      simp only [Ardoise.invoke]
      refine .noted ?_
      cases f with
      | builtin f _ => exact kept.invokeBuiltin (kept.noted fits _) f arguments span
      | closure f => exact kept.invokeClosure ih here fits held.1 held.2

theorem Kept.runProgram (kept : C.Kept limit visits) {limits : Limits}
    (same : limits.callDepth = limit) {fuel : Nat} {program : Program} {m : Machine}
    (here : visits ⟨fuel, .statements program, m⟩) (fits : C.fits w m) :
    C.Covers w C.HasFlow (Ardoise.runProgram limits fuel program m) := by
  subst same
  exact kept.executeAll (kept.invoke fuel) program here fits

/-! ## Moments -/

/-- The account goes on from a moment to those that it leads to. -/
theorem Kept.step (kept : C.Kept limit visits) {x y : Moment}
    (step : Moment.LeadsTo limit x y) (here : visits x) (fits : C.fits w x.machine)
    (held : C.InHand w x.task) :
    ∃ w', C.later w w' ∧ C.fits w' y.machine ∧ C.InHand w' y.task := by
  have still : ∀ {m : Machine}, C.fits w m → ∃ w', C.later w w' ∧ C.fits w' m ∧ True :=
    fun fits => ⟨w, kept.refl w, fits, trivial⟩
  have noted {m : Machine} (event : Event) (fits : C.fits w m) := kept.noted fits event
  have enters : ∀ {v m}, C.later w v → C.fits v m →
      ∃ w', C.later w w' ∧ C.fits w' (m.enter m.scope) ∧ True := fun later fits =>
    have ⟨w', later', entered⟩ := kept.enter fits
    ⟨w', kept.trans later later', entered, trivial⟩
  have calls := kept.invoke
  cases step with
  | assigned | operand | binaryLeft | logicalLeft | callee | elements | source | firstExpression
  | condition | firstStatement => exact still fits
  | leading | whileLoop => exact still (noted _ fits)
  | binaryRight first =>
      obtain ⟨w', later, reached, _⟩ :=
        (kept.evaluate (calls _) _ (kept.visited .binaryLeft here) fits).of_done first
      exact ⟨w', later, reached, trivial⟩
  | logicalRight first _ =>
      obtain ⟨w', later, reached, _⟩ :=
        (kept.evaluate (calls _) _ (kept.visited .logicalLeft here) fits).of_done first
      exact ⟨w', later, reached, trivial⟩
  | arguments found _ =>
      obtain ⟨w', later, reached, _⟩ :=
        (kept.evaluate (calls _) _ (kept.visited .callee here) fits).of_done found
      exact ⟨w', later, reached, trivial⟩
  | call found agree given =>
      obtain ⟨v, later, reached, has⟩ :=
        (kept.evaluate (calls _) _ (kept.visited .callee here) fits).of_done found
      obtain ⟨w', later', reached', each⟩ := (kept.evaluateAll (calls _) _
        (kept.visited (.arguments found agree) here) reached).of_done given
      cases has with
      | plain plain => cases plain
      | function owned =>
          exact ⟨w', kept.trans later later', reached', kept.mono later' owned, each⟩
  | position found =>
      obtain ⟨w', later, reached, _⟩ :=
        (kept.evaluate (calls _) _ (kept.visited .source here) fits).of_done found
      exact ⟨w', later, reached, trivial⟩
  | otherExpressions first =>
      obtain ⟨w', later, reached, _⟩ :=
        (kept.evaluate (calls _) _ (kept.visited .firstExpression here) fits).of_done first
      exact ⟨w', later, reached, trivial⟩
  | block => exact enters (kept.refl w) (noted _ fits)
  | branchThen holds =>
      obtain ⟨v, later, reached, _⟩ := (kept.evaluateCondition (calls _)
        (kept.visited (.leading rfl) here) (noted _ fits)).of_done holds
      exact enters later reached
  | branchElse fails =>
      obtain ⟨v, later, reached, _⟩ := (kept.evaluateCondition (calls _)
        (kept.visited (.leading rfl) here) (noted _ fits)).of_done fails
      exact enters later reached
  | whileBody holds =>
      obtain ⟨v, later, reached, _⟩ := (kept.evaluateCondition (calls _)
        (kept.visited .condition here) fits).of_done holds
      exact enters later reached
  | whileAgain holds ran =>
      obtain ⟨v, later, reached, _⟩ := (kept.evaluateCondition (calls _)
        (kept.visited .condition here) fits).of_done holds
      have turn := kept.visited (.whileBody holds) here
      obtain ⟨w', later', reached', _⟩ := (kept.inChild (P := C.HasFlow) reached
        fun _ _ entered => kept.executeAll (calls _) _ turn entered).of_done ran
      exact ⟨w', kept.trans later later', reached', trivial⟩
  | lastBound from' =>
      obtain ⟨w', later, reached, _⟩ := (kept.evaluateBound (calls _) .first
        (kept.visited (.leading rfl) here) (noted _ fits)).of_done from'
      exact ⟨w', later, reached, trivial⟩
  | countLoop from' to' =>
      obtain ⟨v, later, reached, _⟩ := (kept.evaluateBound (calls _) .first
        (kept.visited (.leading rfl) here) (noted _ fits)).of_done from'
      obtain ⟨w', later', reached', _⟩ := (kept.evaluateBound (calls _) .last
        (kept.visited (.lastBound from') here) reached).of_done to'
      exact ⟨w', kept.trans later later', reached', trivial⟩
  | countBody inBounds declared =>
      obtain ⟨v, later, entered⟩ := kept.enter fits
      obtain ⟨w', later', reached, _⟩ :=
        (kept.declared entered _ (.plain (.number _))).of_done declared
      exact ⟨w', kept.trans later later', reached, trivial⟩
  | countAgain inBounds ran =>
      have covers := kept.withCounter
        (fun turn entered => kept.executeAll (calls _) _ turn entered) inBounds here fits
      obtain ⟨w', later, reached, _⟩ := covers.of_done ran
      exact ⟨w', later, reached, trivial⟩
  | otherStatements first =>
      obtain ⟨w', later, reached, _⟩ :=
        (kept.execute (calls _) _ (kept.visited .firstStatement here) fits).of_done first
      exact ⟨w', later, reached, trivial⟩
  | @callBody _ m _ _ f arguments _ admitted declared =>
      obtain ⟨-, rfl⟩ := guardDepth_done admitted
      obtain ⟨owned, each⟩ := held
      obtain ⟨v, later, entered⟩ := kept.call here fits owned
      have ready := kept.deepened (kept.noted entered (.calling f.name arguments.length))
        (m.depth + 1)
      obtain ⟨w', later', reached, _⟩ := (kept.declaredAll ready rfl _
        fun value member => kept.has_mono later (each value member)).of_done declared
      exact ⟨w', kept.trans later later', reached, trivial⟩

theorem Kept.along (kept : C.Kept limit visits) {x y : Moment}
    (path : Relation.ReflTransGen (Moment.LeadsTo limit) x y) (here : visits x)
    (fits : C.fits w x.machine) (held : C.InHand w x.task) :
    ∃ w', C.later w w' ∧ C.fits w' y.machine ∧ C.InHand w' y.task := by
  induction path using Relation.ReflTransGen.head_induction_on generalizing w with
  | refl => exact ⟨w, kept.refl w, fits, held⟩
  | head step _ ih =>
      obtain ⟨v, later, reached, inHand⟩ := kept.step step here fits held
      obtain ⟨w', later', last⟩ := ih (kept.visited step here) reached inHand
      exact ⟨w', kept.trans later later', last⟩

/-! ## Sessions -/

private theorem Kept.runSession (kept : C.Kept limit visits) {world : World} {session : Session}
    {fuel : Nat} {journal : Array Event} {program : Program} {report : Report}
    (same : session.limits.callDepth = limit)
    (here : visits ⟨fuel, .statements program, world.machine session journal⟩)
    (fits : C.fits w (world.machine session journal))
    (ran : world.runProgram fuel session journal program = some report) :
    ∃ w', C.later w w' ∧ ∀ journal, C.fits w' (report.world.machine report.session journal) := by
  have covered := kept.runProgram same here fits
  -- between runs the session's own scope is in use, and no call is in progress
  have between : ∀ {v n}, C.later w v → C.fits v n → ∀ diagnostic journal, C.fits v
      (World.machine (World.report world.library session.limits session.scope n diagnostic).world
        (World.report world.library session.limits session.scope n diagnostic).session journal) :=
    fun later reached _ journal => kept.quiet 0 _ journal (kept.leave fits later reached)
  simp only [World.runProgram] at ran
  split at ran
  · rename_i n done
    cases ran
    obtain ⟨w', later, reached, _⟩ := covered.of_done done
    exact ⟨w', later, between later reached none⟩
  · rename_i fault n failed
    cases ran
    rw [failed] at covered
    obtain ⟨w', later, reached⟩ := covered
    exact ⟨w', later, between later reached (some (.runtime fault))⟩
  · cases ran

/-- What is accounted for before a session runs a text is accounted for afterwards. -/
theorem Kept.run {world : World} {session : Session}
    (kept : C.Kept session.limits.callDepth fun _ => True) {fuel : Nat} {source : String}
    {report : Report} (fits : ∀ journal, C.fits w (world.machine session journal))
    (ran : world.run fuel session source = some report) :
    ∃ w', C.later w w' ∧ ∀ journal, C.fits w' (report.world.machine report.session journal) := by
  unfold World.run at ran
  split at ran
  · cases ran
    exact ⟨w, kept.refl w, fits⟩
  · split at ran
    · cases ran
      exact ⟨w, kept.refl w, fits⟩
    · exact kept.runSession rfl trivial (fits _) ran

end Custody

end Ardoise
