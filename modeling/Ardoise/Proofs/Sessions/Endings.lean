import Ardoise.Proofs.Layout
import Ardoise.Proofs.Regime

/-!
# How runs end

A session that remembers nothing holds no function but those of the library, so a
program that is run in it ends on the terms that its own code suits.  In
particular a program that never counts ends, in any session of any desk: its
loops are stopped after a number of turns, and its calls below a depth.
-/

namespace Ardoise

theorem eq_ok_of_toOption {ε α : Type} {x : Except ε α} {a : α} (h : x.toOption = some a) :
    x = .ok a := by
  cases x with
  | error _ => cases h
  | ok _ => cases h; rfl

/-! ## Worlds that hold the library alone -/

namespace World

section

variable {V : Value → Prop} (builtins : ∀ f, V (.function (.builtin f f.arity)))
include builtins

private theorem bindBuiltin_each {store : Store} (h : store.Each V) (scope : Scope) (f : Builtin) :
    (bindBuiltin scope store f).Each V := by
  unfold bindBuiltin
  induction f.names generalizing store with
  | nil => exact h
  | cons name names ih => exact ih (h.bind (builtins f))

private theorem bindBuiltins_each {store : Store} (h : store.Each V) (scope : Scope)
    (fs : List Builtin) : (fs.foldl (bindBuiltin scope) store).Each V := by
  induction fs generalizing store with
  | nil => exact h
  | cons f fs ih => exact ih (bindBuiltin_each builtins h scope f)

theorem initial_each : initial.store.Each V :=
  (bindBuiltins_each builtins (Store.Each.empty.push []) _ Builtin.all).sealScope _

private theorem fresh_each (limits : Limits) : (fresh limits).2.store.Each V :=
  ((initial_each builtins).push _).clear _

end

theorem fresh_from (S : Stmt → Prop) (limits : Limits) :
    (fresh limits).2.store.Each (Value.From S) :=
  fresh_each (fun f => .function (.builtin f)) limits

end World

/-! ## Runs -/

/-- The run ended well, or in a fault that the terms permit, or it did not end and may not. -/
inductive EndsOn (t : Terms) : Option Report → Prop
  | well {report : Report} (diagnostic : report.diagnostic = none) : EndsOn t (some report)
  | faulty {report : Report} {fault : Located RuntimeFault}
      (diagnostic : report.diagnostic = some (.runtime fault)) (permitted : t.permits fault) :
      EndsOn t (some report)
  | unfinished (endless : t.endless) : EndsOn t none

variable {t : Terms} {S : Stmt → Prop} {E : Expr → Prop}

theorem ReportsMatch.endsOn {p : Pairing} {o o' : Option Report} (h : ReportsMatch p o o')
    (strict : p.generous = false) (sharp : p.blur = .sharp) (ends : EndsOn t o) :
    EndsOn t o' := by
  have same : Diagnostic.blur .sharp = id := funext Diagnostic.blur_sharp
  cases h with
  | ended lines diagnostic =>
      rw [sharp, same, Option.map_id, id] at diagnostic
      cases ends with
      | well well => exact .well (diagnostic.trans well)
      | faulty faulty permitted => exact .faulty (diagnostic.trans faulty) permitted
  | unfinished o spent =>
      cases ends with
      | unfinished endless =>
          rcases spent with rfl | generous
          · exact .unfinished endless
          · simp [strict] at generous

namespace World

variable {world : World} {session : Session} {program : Program} {fuel : Nat}

theorem runProgram_endsOn (suit : t.Suit S E) (each : ∀ s ∈ program, S s)
    (store : world.store.Each (Value.From S)) (journal : Array Event)
    (enough : t.endless ∨ session.limits.callDepth < fuel) :
    EndsOn t (world.runProgram fuel session journal program) := by
  have outcome := keeps_runProgram suit session.limits each enough (world.machine session journal)
    ⟨rfl, store⟩
  simp only [World.runProgram]
  generalize Ardoise.runProgram session.limits fuel program _ = o at outcome
  cases o with
  | done flow machine => exact .well rfl
  | failed fault machine => exact .faulty rfl outcome.2
  | exhausted => exact .unfinished outcome

theorem runProgram_from (code : Code S E) (each : ∀ s ∈ program, S s)
    (store : world.store.Each (Value.From S)) {journal : Array Event} {report : Report}
    (ran : world.runProgram fuel session journal program = some report) :
    report.world.store.Each (Value.From S) := by
  have outcome := @keeps_runProgram .none S E code.suits_none session.limits fuel program each
    (.inl trivial) (world.machine session journal) ⟨rfl, store⟩
  simp only [World.runProgram] at ran
  generalize Ardoise.runProgram session.limits fuel program _ = o at ran outcome
  cases o with
  | done flow machine =>
      cases ran
      exact outcome.1.store
  | failed fault machine =>
      cases ran
      exact outcome.1
  | exhausted => cases ran

/-- What holds in a new session of a new world holds in every session that was reset. -/
theorem interpret_endsOn {source : String} {tokens : List Token} (intact : world.Intact)
    (fits : session.Fits world) (scanned : scan source = .ok tokens)
    (parsed : parse session.limits.nesting tokens = .ok program) (suit : t.Suit S E)
    (each : ∀ s ∈ program, S s) (enough : t.endless ∨ session.limits.callDepth < fuel) :
    EndsOn t (world.interpret fuel session source) := by
  obtain ⟨spared, fits'⟩ := intact_initial.newSession session.limits
  have intact' := intact_initial.of_spares spared
  obtain ⟨journal, runs⟩ := interpret_eq_runProgram scanned parsed
  have fresh : EndsOn t (Ardoise.interpret fuel session.limits source) := by
    rw [runs]
    exact @runProgram_endsOn t S E _ (World.fresh session.limits).1 _ _ suit each
      (fresh_from S session.limits) journal enough
  have same := interpret_matches false intact' fits' intact fits rfl (.inl (Eq.refl fuel)) source
  exact same.endsOn rfl rfl fresh

end World

/-! ## Programs that never count -/

mutual

def Stmt.isCountless : Stmt → Bool
  | .expression _ | .print _ _ | .declare _ _ _ | .give _ _ => true
  | .block ⟨_, body⟩ | .whileLoop _ _ ⟨_, body⟩ | .function _ _ _ body
  | .branch _ _ ⟨_, body⟩ none => Stmt.allCountless body
  | .branch _ _ ⟨_, body⟩ (some ⟨_, other⟩) => Stmt.allCountless body && Stmt.allCountless other
  | .countLoop _ _ _ _ _ => false

def Stmt.allCountless : List Stmt → Bool
  | [] => true
  | s :: rest => s.isCountless && Stmt.allCountless rest

end

def Regime.countless : Regime := ⟨fun _ => True, False⟩

mutual

theorem Expr.obeys_countless : (e : Expr) → e.Obeys .countless
  | .literal _ _ => trivial
  | .lookup _ _ => ⟨trivial, trivial⟩
  | .assign _ _ value => ⟨trivial, trivial, value.obeys_countless⟩
  | .unary _ _ operand => ⟨trivial, operand.obeys_countless⟩
  | .binary _ _ left right | .logical _ _ _ left right =>
      ⟨trivial, left.obeys_countless, right.obeys_countless⟩
  | .call _ _ callee arguments =>
      ⟨trivial, trivial, callee.obeys_countless, Expr.allObey_countless arguments⟩
  | .array _ elements => ⟨trivial, Expr.allObey_countless elements⟩
  | .index _ source position => ⟨trivial, source.obeys_countless, position.obeys_countless⟩

theorem Expr.allObey_countless : (es : List Expr) → Expr.AllObey .countless es
  | [] => trivial
  | e :: rest => ⟨e.obeys_countless, Expr.allObey_countless rest⟩

end

mutual

theorem Stmt.obeys_of_isCountless : (s : Stmt) → s.isCountless = true → s.Obeys .countless
  | .expression value, _ | .print _ value, _ | .give _ value, _ => value.obeys_countless
  | .declare _ _ value, _ => ⟨trivial, value.obeys_countless⟩
  | .block ⟨_, body⟩, h => Stmt.allObey_of_allCountless body h
  | .branch _ condition ⟨_, body⟩ none, h =>
      ⟨condition.obeys_countless, Stmt.allObey_of_allCountless body h⟩
  | .branch _ condition ⟨_, body⟩ (some ⟨_, other⟩), h =>
      have both := Bool.and_eq_true_iff.mp h
      ⟨condition.obeys_countless, Stmt.allObey_of_allCountless body both.1,
        Stmt.allObey_of_allCountless other both.2⟩
  | .whileLoop _ condition ⟨_, body⟩, h =>
      ⟨condition.obeys_countless, Stmt.allObey_of_allCountless body h⟩
  | .function _ _ _ body, h =>
      ⟨trivial, fun _ _ => trivial, Stmt.allObey_of_allCountless body h⟩

theorem Stmt.allObey_of_allCountless : (ss : List Stmt) → Stmt.allCountless ss = true →
    Stmt.AllObey .countless ss
  | [], _ => trivial
  | s :: rest, h =>
      have both := Bool.and_eq_true_iff.mp h
      ⟨Stmt.obeys_of_isCountless s both.1, Stmt.allObey_of_allCountless rest both.2⟩

end

namespace Desk

variable {history : List Step} {desk : Desk} {number : Nat} {session : Session}

/--
A text that reads as a program without counting loops ends in every session, well
or in a fault of the run, as soon as there is more fuel than calls may be in
progress; and what it prints and how it ends are the same however much more.
-/
theorem interpret_ends (reachable : Reachable history desk)
    (found : desk.session? number = some session) {source : String} {tokens : List Token}
    {program : Program} (scanned : scan source = .ok tokens)
    (parsed : parse session.limits.nesting tokens = .ok program)
    (countless : Stmt.allCountless program = true) :
    ∃ diagnostic printed,
      (diagnostic = none ∨ ∃ fault, diagnostic = some (Diagnostic.runtime fault)) ∧
      ∀ fuel, session.limits.callDepth < fuel →
        ∃ next, desk.interpret fuel number source = some (next, diagnostic) ∧
          next.world.lines = desk.world.lines ++ printed := by
  have sound := reachable.sound
  have fits := (sound.fits found).1
  have obeys := Stmt.allObey_of_allCountless program countless
  have ends : ∀ fuel, session.limits.callDepth < fuel →
      ∃ report, desk.world.interpret fuel session source = some report ∧
        (report.diagnostic = none ∨ ∃ fault, report.diagnostic = some (.runtime fault)) := by
    intro fuel enough
    have endsOn := World.interpret_endsOn sound.intact fits scanned parsed Regime.countless.suit
      (Stmt.allObey_iff.mp obeys) (.inr enough)
    generalize desk.world.interpret fuel session source = o at endsOn
    cases endsOn with
    | well diagnostic => exact ⟨_, rfl, .inl diagnostic⟩
    | faulty diagnostic _ => exact ⟨_, rfl, .inr ⟨_, diagnostic⟩⟩
    | unfinished counts => cases counts
  obtain ⟨first, ran, ended⟩ := ends _ (Nat.lt_succ_self session.limits.callDepth)
  obtain ⟨⟨printed, lines, _⟩, _⟩ :=
    World.interpret_agrees sound.intact fits sound.intact fits rfl ran ran
  refine ⟨first.diagnostic, printed, ended, fun fuel enough => ?_⟩
  obtain ⟨report, ran', _⟩ := ends fuel enough
  obtain ⟨⟨printed', lines', lines''⟩, same⟩ :=
    World.interpret_agrees sound.intact fits sound.intact fits rfl ran ran'
  have samePrinted : printed' = printed := (Array.append_right_inj _).mp (lines'.symm.trans lines)
  refine ⟨_, (interpret_eq_some found).mpr ⟨report, ran', rfl, same⟩, ?_⟩
  rw [lines'', samePrinted]

/-- A function that calls itself out of an array until three calls are in progress. -/
theorem interpret_ends_in_recursion :
    let source := "fonction f(a) tantque vrai faire retourner a[0](a) fin fin f([f])"
    let desk := Desk.empty.openSession { callDepth := 3 }
    ∃ fault : Located RuntimeFault, fault.fault = .callDepthExceeded 3 ∧
      ∀ fuel, 3 < fuel →
        ∃ next, desk.interpret fuel 0 source = some (next, some (.runtime fault)) := by
  intro source desk
  have opened : Desk.empty.step 0 (.newSession { callDepth := 3 }) = some (desk, none) := rfl
  have reachable := Reachable.empty.step opened
  have found : desk.session? 0 = some (World.initial.newSession { callDepth := 3 }).1 := rfl
  have read : (scan source).toOption.bind (fun tokens => (parse 256 tokens).toOption.map
      Stmt.allCountless) = some true := by decide +kernel
  have stopped : (desk.interpret 4 0 source).map (·.2) =
      some (some (.runtime ⟨⟨43, 47, 1⟩, .callDepthExceeded 3⟩)) := by decide +kernel
  obtain ⟨tokens, scanned, read⟩ := Option.bind_eq_some_iff.mp read
  obtain ⟨program, parsed, countless⟩ := Option.map_eq_some_iff.mp read
  obtain ⟨diagnostic, printed, _, ends⟩ := interpret_ends reachable found
    (eq_ok_of_toOption scanned) (eq_ok_of_toOption parsed) countless
  obtain ⟨next, ran, _⟩ := ends 4 (by decide)
  rw [ran] at stopped
  cases stopped
  refine ⟨⟨⟨43, 47, 1⟩, .callDepthExceeded 3⟩, rfl, fun fuel enough => ?_⟩
  obtain ⟨next, ran, _⟩ := ends fuel enough
  exact ⟨next, ran⟩

end Desk

end Ardoise
