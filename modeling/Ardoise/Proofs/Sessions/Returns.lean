import Ardoise.Proofs.Sessions.Dialogue

/-!
# Leaving calls

A statement that gives a value back stands in the body of a function, and nowhere
else.  So a program as a whole is never left early: where it ends well, each of
its statements was executed.  Within a call, giving a value back ends all that is
in progress up to that call, the blocks and the loops alike, and then the call
itself.
-/

namespace Ardoise

/-! ## Where values are given back -/

theorem Stmt.giveInside_eq_true_iff {inFunction : Bool} {ss : List Stmt} :
    Stmt.giveInside inFunction ss = true ↔ ∀ s ∈ ss, s.givesInside inFunction = true := by
  induction ss with
  | nil => simp [Stmt.giveInside]
  | cons s rest ih => simp [Stmt.giveInside, ih]

theorem StmtDerives.givesInside {limit n : Nat} {f : Bool} {s : Stmt} {ts : List Token}
    (h : StmtDerives limit f n s ts) : s.givesInside f = true := by
  have bodies {f : Bool} {body : List (Stmt × List Token)}
      (each : ∀ s ∈ body, s.1.givesInside f = true) :
      Stmt.giveInside f (body.map Prod.fst) = true :=
    Stmt.giveInside_eq_true_iff.mpr (List.forall_mem_map.mpr each)
  induction h with
  | give | declare | print | expression => rfl
  | function _ _ _ _ _ _ _ _ _ ih => exact bodies ih
  | branch _ _ _ _ _ _ ih => exact bodies ih
  | branchOtherwise _ _ _ _ _ _ _ _ ih others =>
      simp only [Stmt.givesInside, bodies ih, bodies others, Bool.and_self]
  | whileLoop _ _ _ _ _ _ ih => exact bodies ih
  | countLoop _ _ _ _ _ _ _ _ _ ih => exact bodies ih
  | block _ _ _ _ ih => exact bodies ih

private theorem giveInside_of_parse {limit : Nat} {tokens : List Token} {program : Program}
    (parsed : parse limit tokens = .ok program) : Stmt.giveInside false program = true := by
  obtain ⟨_, _, _, _, pieces, rfl, each, _⟩ := sequenced_of_parse parsed
  rw [Stmt.giveInside_eq_true_iff, List.forall_mem_map]
  exact fun piece member => (each piece member).givesInside

/-! ## Programs that end well -/

/-- Each of the statements was executed, on the machine that the one before it left. -/
inductive Executes (i : Invoke) (fuel : Nat) : List Stmt → Machine → Machine → Prop
  | none (m : Machine) : Executes i fuel [] m m
  | more {s : Stmt} {rest : List Stmt} {m n k : Machine}
      (first : execute i fuel s m = .done .next n) (others : Executes i fuel rest n k) :
      Executes i fuel (s :: rest) m k

private theorem executes_of_next {i : Invoke} {fuel : Nat} {ss : List Stmt} {m n : Machine}
    (went : executeAll i fuel ss m = .done .next n) : Executes i fuel ss m n := by
  induction ss generalizing m with
  | nil =>
      cases went
      exact .none _
  | cons s rest ih =>
      simp only [executeAll, bind, Run.bind] at went
      cases first : execute i fuel s m with
      | done flow k =>
          rw [first] at went
          cases flow with
          | next => exact .more first (ih went)
          | give value => cases went
      | failed fault k =>
          rw [first] at went
          cases went
      | exhausted =>
          rw [first] at went
          cases went

private theorem executes_of_report {world : World} {session : Session} {journal : Array Event}
    {limit fuel : Nat} {tokens : List Token} {program : Program} {report : Report}
    (parsed : parse limit tokens = .ok program)
    (ran : world.runProgram fuel session journal program = some report)
    (well : report.diagnostic = none) :
    ∃ n, Executes (invoke session.limits.callDepth fuel) fuel program
        (world.machine session journal) n ∧
      report = World.report world.library session.limits session.scope n none := by
  simp only [World.runProgram] at ran
  cases ended : runProgram session.limits fuel program (world.machine session journal) with
  | done flow n =>
      rw [ended] at ran
      cases ran
      cases flow with
      | next => exact ⟨n, executes_of_next ended, rfl⟩
      | give value => exact absurd ended (goesOn_of_parse parsed _ _ _ _ _)
  | failed fault n =>
      rw [ended] at ran
      cases ran
      cases well
  | exhausted =>
      rw [ended] at ran
      cases ran

/-! ## What is in progress around a statement -/

namespace Machine

def SamePlace (m n : Machine) : Prop :=
  n.scope = m.scope ∧ n.depth = m.depth

def backTo (n m : Machine) : Machine :=
  { n with scope := m.scope, depth := m.depth }

theorem SamePlace.backTo_eq {m k : Machine} (h : m.SamePlace k) (n : Machine) :
    n.backTo k = n.backTo m := by
  simp only [backTo, h.1, h.2]

private theorem SamePlace.backTo_self {m n : Machine} (h : m.SamePlace n) : n.backTo m = n := by
  rw [← h.backTo_eq]
  rfl

end Machine

theorem effects_place : Effects Machine.SamePlace Machine.SamePlace where
  refl _ := ⟨rfl, rfl⟩
  trans h h' := ⟨h'.1.trans h.1, h'.2.trans h.2⟩
  stmtTrans h h' := ⟨h'.1.trans h.1, h'.2.trans h.2⟩
  lift := id
  record _ _ := ⟨rfl, rfl⟩
  print _ _ := ⟨rfl, rfl⟩
  assign _ := ⟨rfl, rfl⟩
  declare _ := ⟨rfl, rfl⟩
  capture _ := ⟨rfl, rfl⟩
  leave _ h := ⟨rfl, h.2⟩
  call h := ⟨h.1, by simp [h.2]⟩

namespace Run

variable {α β : Type} {m n : Machine} {a : α}

theorem inside_done {r : Run α} {scope : Scope} (done : r { m with scope := scope } = .done a n) :
    inside scope r m = .done a { n with scope := m.scope } := by
  simp only [inside, done]

theorem inChild_done {r : Run α} (done : r (m.enter m.scope) = .done a n) :
    inChild r m = .done a { n with scope := m.scope } :=
  inside_done (m := { m with store := (m.store.newChild m.scope).2 }) done

private theorem duringCall_done {r : Run α} (done : r m.deepen = .done a n) :
    duringCall r m = .done a { n with depth := n.depth - 1 } := by
  have ran : r { m with depth := m.depth + 1 } = .done a n := done
  simp only [duringCall, ran]

end Run

namespace Moment

variable {limit : Nat} {x y : Moment} {value : Value} {n : Machine}

def flow? (limit : Nat) : Moment → Option (Outcome Flow)
  | ⟨fuel, .statement s, m⟩ => some (execute (invoke limit fuel) fuel s m)
  | ⟨fuel, .statements ss, m⟩ => some (executeAll (invoke limit fuel) fuel ss m)
  | ⟨fuel, .whileTurns condition body turns, m⟩ =>
      some (Ardoise.whileTurns condition.span (evaluateCondition (invoke limit fuel) condition)
        (Run.inChild (executeAll (invoke limit fuel) fuel body)) turns m)
  | ⟨fuel, .countTurns counter step last body turns current, m⟩ =>
      some (Ardoise.countTurns step last
        (withCounter counter (executeAll (invoke limit fuel) fuel body)) turns current m)
  | ⟨_, .expression _, _⟩ | ⟨_, .expressions _, _⟩ | ⟨_, .call .., _⟩ => none

/-- The task is left with the value, on the machine `n` but where the task was begun. -/
def Gives (limit : Nat) (x : Moment) (value : Value) (n : Machine) : Prop :=
  x.flow? limit = some (.done (.give value) (n.backTo x.machine))

/-- A task whose part is left with a value is left with that value itself, unless it is a call. -/
theorem LeadsTo.gives (step : LeadsTo limit x y) (inside : x.task.isCall = false)
    (gives : y.Gives limit value n) : x.Gives limit value n := by
  have calls := effects_place.within_invoke limit
  -- a part that comes after others is begun in the same place as the task
  have since {α : Type} {r : Run α} {m k : Machine} {a : α}
      (within : Run.Within Machine.SamePlace r) (done : r m = .done a k) :
      n.backTo k = n.backTo m :=
    Machine.SamePlace.backTo_eq ((within m).of_done done) n
  unfold Gives at gives ⊢
  cases step with
  | assigned | operand | binaryLeft | binaryRight | logicalLeft | logicalRight | callee
  | arguments | call | elements | source | position | firstExpression | otherExpressions
  | leading | condition | lastBound => cases gives
  | block =>
      simp only [flow?, Option.some.injEq] at gives ⊢
      exact Run.inChild_done gives
  | @branchThen fuel m k span condition body otherwise holds =>
      have place := since (effects_place.within_evaluateCondition (calls _) _) holds
      simp only [flow?, Option.some.injEq] at gives ⊢
      cases otherwise <;>
      · simp only [execute, Run.record_bind, Run.bind_done holds, if_true]
        rw [Run.inChild_done gives]
        exact congrArg _ place
  | branchElse fails =>
      have place := since (effects_place.within_evaluateCondition (calls _) _) fails
      simp only [flow?, Option.some.injEq] at gives ⊢
      simp only [execute, Run.record_bind, Run.bind_done fails, Bool.false_eq_true, if_false]
      rw [Run.inChild_done gives]
      exact congrArg _ place
  | whileLoop =>
      have ran := Option.some.inj gives
      simp only [flow?, Option.some.injEq]
      -- by rewriting alone, as the turns are too many to be unfolded
      rw [execute, Run.record_bind]
      exact ran
  | whileBody holds =>
      have place := since (effects_place.within_evaluateCondition (calls _) _) holds
      simp only [flow?, Option.some.injEq] at gives ⊢
      simp only [Ardoise.whileTurns, Run.bind_done holds, if_true,
        Run.bind_done (Run.inChild_done gives)]
      exact congrArg _ place
  | whileAgain holds ran =>
      have place := since (effects_place.within_evaluateCondition (calls _) _) holds
      have place' := since
        (effects_place.within_inChild (effects_place.within_executeAll (calls _) _ _)) ran
      simp only [flow?, Option.some.injEq] at gives ⊢
      simp only [Ardoise.whileTurns, Run.bind_done holds, if_true, Run.bind_done ran, gives]
      rw [place', place]
  | countLoop from' to' =>
      have place := since (effects_place.within_evaluateBound (calls _) _ _) from'
      have place' := since (effects_place.within_evaluateBound (calls _) _ _) to'
      simp only [flow?, Option.some.injEq] at gives ⊢
      simp only [execute, Run.record_bind, Run.bind_done from', Run.bind_done to', gives]
      rw [place', place]
      rfl
  | @countBody fuel m k counter step last body turns current inBounds declared =>
      have place : n.backTo k = n.backTo (m.enter m.scope) :=
        since (effects_place.within_declare _ _) declared
      simp only [flow?, Option.some.injEq] at gives ⊢
      have ran : withCounter counter (executeAll (invoke limit fuel) fuel body) current m =
          .done (.give value) (n.backTo m) := by
        rw [withCounter_eq_inChild, Run.inChild_done ((Run.bind_done declared _).trans gives),
          place]
        rfl
      simp only [Ardoise.countTurns, inBounds, if_true, Run.bind_done ran]
      rfl
  | countAgain inBounds ran =>
      have place := since (effects_place.within_withCounter _
        (effects_place.within_executeAll (calls _) _ _) _) ran
      simp only [flow?, Option.some.injEq] at gives ⊢
      simp only [Ardoise.countTurns, inBounds, if_true, Run.bind_done ran, gives]
      rw [place]
  | firstStatement =>
      simp only [flow?, Option.some.injEq] at gives ⊢
      simp only [executeAll, Run.bind_done gives]
      rfl
  | otherStatements first =>
      have place := since (effects_place.within_execute (calls _) _ _) first
      simp only [flow?, Option.some.injEq] at gives ⊢
      simp only [executeAll, Run.bind_done first, gives]
      rw [place]
  | callBody => cases inside

private theorem LeadsTo.call_gives {fuel : Nat} {f : Closure} {arguments : List Value} {span : Span}
    {m : Machine} (step : LeadsTo limit ⟨fuel, .call (.closure f) arguments span, m⟩ y)
    (gives : y.Gives limit value n) :
    invoke limit fuel (.closure f) arguments span m = .done value (n.backTo m) := by
  cases step with
  | @callBody fuel m _ k f arguments span admitted declared =>
      obtain ⟨-, rfl⟩ := guardDepth_done admitted
      have ran := Option.some.inj gives
      obtain ⟨store, rfl, declares⟩ := Run.declareAllIn_done declared
      -- the arguments are bound before the scope is entered, which makes no difference
      let opened : Machine := { m.note (.calling f.name arguments.length) with
        store := (m.store.newChild f.scope).2 }
      have binds := declares opened rfl
      have body : Run.duringCall (Run.inside (m.enter f.scope).scope
          (executeAll (invoke limit fuel) fuel f.body)) { opened with store := store } =
          .done (.give value) (n.backTo m) := by
        have inner := Run.inside_done (m := Machine.deepen { opened with store := store }) ran
        exact Run.duringCall_done inner
      simp only [invoke, Run.record_bind]
      unfold invokeClosure
      refine (Run.bind_done admitted _).trans ?_
      rw [Run.newScope_bind]
      exact (Run.bind_done binds _).trans (Run.bind_done body _)

end Moment

def Task.settled : Task → Bool
  | .statement s => s.givesInside false
  | .statements body | .whileTurns _ body _ | .countTurns _ _ _ body _ _ =>
      Stmt.giveInside false body
  | .expression _ | .expressions _ | .call .. => true

namespace Task

theorem eq_call_of_isCall {task : Task} (h : task.isCall = true) :
    ∃ f arguments span, task = .call (.closure f) arguments span := by
  cases task with
  | call f arguments span =>
      cases f with
      | closure f => exact ⟨f, arguments, span, rfl⟩
      | builtin => cases h
  | _ => cases h

theorem isCall_of_not_settled {task : Task} (h : task.settled = false) : task.isCall = false := by
  rw [Bool.eq_false_iff]
  intro calling
  obtain ⟨f, arguments, span, rfl⟩ := eq_call_of_isCall calling
  cases h

end Task

namespace Moment

variable {limit : Nat} {x y : Moment} {around : List Moment}

/-- Only the body of a function can leave a call that its surroundings do not. -/
theorem LeadsTo.isCall_of_settled (step : LeadsTo limit x y) (settled : x.task.settled = true)
    (leaves : y.task.settled = false) : x.task.isCall = true := by
  cases step with
  | assigned | operand | binaryLeft | binaryRight | logicalLeft | logicalRight | callee
  | arguments | call | elements | source | position | firstExpression | otherExpressions
  | leading | condition | lastBound => cases leaves
  | block | whileLoop | whileBody | whileAgain | countLoop | countBody | countAgain =>
      cases settled.symm.trans leaves
  | @branchThen _ _ _ _ _ body otherwise =>
      cases otherwise with
      | none => cases settled.symm.trans leaves
      | some other =>
          simp only [Task.settled, Stmt.givesInside, Bool.and_eq_true] at settled leaves
          cases settled.1.symm.trans leaves
  | branchElse =>
      simp only [Task.settled, Stmt.givesInside, Bool.and_eq_true] at settled leaves
      cases settled.2.symm.trans leaves
  | firstStatement =>
      simp only [Task.settled, Stmt.giveInside, Bool.and_eq_true] at settled leaves
      cases settled.1.symm.trans leaves
  | otherStatements =>
      simp only [Task.settled, Stmt.giveInside, Bool.and_eq_true] at settled leaves
      cases settled.2.symm.trans leaves
  | callBody => rfl

/--
The tasks around `y`, up to the innermost call.  If `y` is left with a value, so are
all of them, and the call gives it; nothing is done meanwhile, as the machine stays
the one that `y` has left.
-/
inductive LeavesCall (limit : Nat) (around : List Moment) (y : Moment) : Prop
  | innermost {inner outer : List Moment} {fuel : Nat} {f : Closure} {arguments : List Value}
      {span : Span} {m : Machine}
      (split : around = inner ++ ⟨fuel, .call (.closure f) arguments span, m⟩ :: outer)
      (within : ∀ z ∈ inner, z.task.isCall = false)
      (left : ∀ {value : Value} {n : Machine}, y.Gives limit value n →
        (∀ z ∈ inner, z.Gives limit value n) ∧
        invoke limit fuel (.closure f) arguments span m = .done value (n.backTo m))

private theorem Inside.leavesCall (path : Inside limit x around y) (start : x.task.settled = true)
    (leaves : y.task.settled = false) : LeavesCall limit around y := by
  induction path with
  | start => cases start.symm.trans leaves
  | @step around y z path step ih =>
      cases settled : y.task.settled with
      | true =>
          obtain ⟨fuel, task, m⟩ := y
          obtain ⟨f, arguments, span, rfl⟩ :=
            Task.eq_call_of_isCall (step.isCall_of_settled settled leaves)
          exact .innermost (List.nil_append _).symm (by simp) fun gives =>
            ⟨by simp, step.call_gives gives⟩
      | false =>
          obtain ⟨split, within, left⟩ := ih settled
          have inside := Task.isCall_of_not_settled settled
          refine .innermost ((congrArg (y :: ·) split).trans (List.cons_append ..).symm)
            (List.forall_mem_cons.mpr ⟨inside, within⟩) fun gives => ?_
          have gives := step.gives inside gives
          obtain ⟨others, ended⟩ := left gives
          exact ⟨List.forall_mem_cons.mpr ⟨gives, others⟩, ended⟩

theorem gives_of_evaluate {fuel : Nat} {span : Span} {e : Expr} {value : Value} {m n : Machine}
    (done : evaluate (invoke limit fuel) e (m.note (.executing span)) = .done value n) :
    Gives limit ⟨fuel, .statement (.give span e), m⟩ value n := by
  have place : m.SamePlace n :=
    ((effects_place.within_evaluate (effects_place.within_invoke limit fuel) e _).of_done done :)
  simp only [Gives, flow?, execute, Run.record_bind, Run.bind_done done, place.backTo_self]
  rfl

end Moment

/--
Values are given back from within functions only.  So a program is never left early,
and one that ends without a fault has executed each of its statements, in order.  A
value that is given back in a call ends the innermost call with this value, and all
that is in progress within that call, and nothing else is executed on the way.
-/
theorem returns_confined {limit : Nat} {tokens : List Token} {program : Program}
    (parsed : parse limit tokens = .ok program) :
    Stmt.giveInside false program = true ∧
    ∀ (world : World) (session : Session) (journal : Array Event) (fuel : Nat),
      let m := world.machine session journal
      let depth := session.limits.callDepth
      (∀ value n, runProgram session.limits fuel program m ≠ .done (.give value) n) ∧
      (∀ report, world.runProgram fuel session journal program = some report →
        report.diagnostic = none →
        ∃ n, Executes (invoke depth fuel) fuel program m n ∧
          report = World.report world.library session.limits session.scope n none) ∧
      ∀ around fuel' span e k,
        Moment.Inside depth ⟨fuel, .statements program, m⟩ around
          ⟨fuel', .statement (.give span e), k⟩ →
        Moment.LeavesCall depth around ⟨fuel', .statement (.give span e), k⟩ ∧
        ∀ value n, evaluate (invoke depth fuel') e (k.note (.executing span)) = .done value n →
          Moment.Gives depth ⟨fuel', .statement (.give span e), k⟩ value n := by
  have confined := giveInside_of_parse parsed
  refine ⟨confined, fun world session journal fuel => ⟨fun value n => ?_, fun report ran well => ?_,
    fun around fuel' span e k path => ⟨path.leavesCall confined rfl, fun value n done => ?_⟩⟩⟩
  · exact goesOn_of_parse parsed _ _ _ _ _
  · exact executes_of_report parsed ran well
  · exact Moment.gives_of_evaluate done

/-- Out of a block in a loop, which would not end otherwise. -/
theorem returns_confined_in_loop :
    let span : Span := ⟨0, 0, 1⟩
    -- fonction f(a) tantque vrai alors { retourner a } fin fin f(vrai)
    let tokens := [Kind.keyword .fonction, .identifier "f", .symbol .leftParen, .identifier "a",
      .symbol .rightParen, .keyword .tantque, .keyword .vrai, .keyword .alors, .symbol .leftBrace,
      .keyword .retourner, .identifier "a", .symbol .rightBrace, .keyword .fin, .keyword .fin,
      .identifier "f", .symbol .leftParen, .keyword .vrai, .symbol .rightParen, .endOfInput].map
        fun kind => (⟨kind, "", span⟩ : Token)
    let give : Stmt := .give span (.lookup span ⟨"a", span⟩)
    let loop : Stmt :=
      .whileLoop span (.literal span (.boolean true)) ⟨span, [.block ⟨span, [give]⟩]⟩
    let program : Program := [.function span ⟨"f", span⟩ [⟨"a", span⟩] [loop],
      .expression (.call span span (.lookup span ⟨"f", span⟩) [.literal span (.boolean true)])]
    let m := (World.fresh {}).2.machine (World.fresh {}).1 #[]
    parse 256 tokens = .ok program ∧ Stmt.giveInside false program = true ∧
      ∃ around k, Moment.Inside 128 ⟨9, .statements program, m⟩ around ⟨8, .statement give, k⟩ ∧
        Moment.calls around = 1 ∧ around.length = 11 ∧
        Moment.LeavesCall 128 around ⟨8, .statement give, k⟩ := by
  intro span tokens give loop program m
  have parsed : parse 256 tokens = .ok program := by cbv
  obtain ⟨confined, runs⟩ := returns_confined parsed
  have path : ∃ around k,
      Moment.Inside 128 ⟨9, .statements program, m⟩ around ⟨8, .statement give, k⟩ ∧
      Moment.calls around = 1 ∧ around.length = 11 := by
    have called := ((((@Moment.Inside.start 128 ⟨9, .statements program, m⟩).step
      (.otherStatements rfl)).step .firstStatement).step (.leading rfl)).step (.call rfl rfl rfl)
    have looping := ((called.step (.callBody rfl rfl)).step .firstStatement).step .whileLoop
    have given := (((looping.step (.whileBody rfl)).step .firstStatement).step .block).step
      .firstStatement
    exact ⟨_, _, given, rfl, rfl⟩
  obtain ⟨around, k, path, calls, length⟩ := path
  have leaves := (runs (World.fresh {}).2 (World.fresh {}).1 #[] 9).2.2 around 8 span _ k path
  exact ⟨parsed, confined, around, k, path, calls, length, leaves.1⟩

end Ardoise
