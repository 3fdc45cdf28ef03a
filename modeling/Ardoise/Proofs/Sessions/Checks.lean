import Ardoise.Proofs.Parsing.Parts
import Ardoise.Proofs.Sessions.Endings

/-!
# Checks that are not needed

A run can rely on more than the types say.  The operators that it applies are
written in the text, and they are of the sort that the operation asks for, so no
value is ever given an operator that it has no meaning for.  All functions that it
comes to hold are declared in the text, and keep the number of their parameters.
So each parameter of a call is bound to one argument, unless two parameters have
the same name, and the library is given as many arguments as it asks for.  The
scope that is opened for each turn of a counting loop is empty, so the counter can
be declared there.
-/

namespace Ardoise

/-! ## Operators -/

private theorem Kind.eq_of_isSign {op : Kind} (h : op.isSign = true) :
    op = .symbol .minus ∨ op = .symbol .bang := by
  unfold isSign at h
  split at h
  · exact .inl rfl
  · exact .inr rfl
  · cases h

private theorem Kind.eq_symbol_of_isBinary {op : Kind} (h : op.isBinary = true) :
    ∃ symbol, op = .symbol symbol := by
  cases op with
  | symbol symbol => exact ⟨symbol, rfl⟩
  | keyword | identifier | number | text | endOfInput => cases h

private theorem Kind.eq_of_isLogical {op : Kind} (h : op.isLogical = true) :
    ∃ keyword, (keyword = .et ∨ keyword = .ou) ∧ op = .keyword keyword := by
  unfold isLogical at h
  split at h
  · exact ⟨_, .inl rfl, rfl⟩
  · exact ⟨_, .inr rfl, rfl⟩
  · cases h

/-! ## Faults that no program raises -/

/-- A library function was not given one argument, or an operator was applied that is none. -/
inductive RuntimeFault.Internal : RuntimeFault → Prop
  | miscounted (name : String) (arguments : List Value) :
      Internal (.library name (Builtin.wrongCount arguments))
  | notAnOperator (op : Kind) : Internal (.notAnOperator op)

namespace Value

variable {a b : Value} {fault : RuntimeFault}

private theorem not_internal_of_add (h : a.add b = .error fault) : ¬ fault.Internal := by
  unfold add at h
  split at h <;> cases h <;> rintro ⟨⟩

private theorem not_internal_of_onNumbers {operation : String} {f : Float → Float → Value}
    (h : onNumbers operation f a b = .error fault) : ¬ fault.Internal := by
  unfold onNumbers at h
  split at h <;> cases h <;> rintro ⟨⟩

theorem not_internal_of_binary {op : Kind} (binary : op.isBinary = true)
    (h : a.binary op b = .error fault) : ¬ fault.Internal := by
  unfold Kind.isBinary at binary
  split at binary
  case h_1 => exact not_internal_of_add h
  case h_9 | h_10 => cases h
  case h_11 => cases binary
  all_goals exact not_internal_of_onNumbers h

private theorem not_internal_of_unary {op : Kind} (h : a.unary op = .error fault) :
    ¬ fault.Internal := by
  unfold unary at h
  split at h <;> cases h <;> rintro ⟨⟩

end Value

theorem not_internal_of_elementAt {elements : List Value} {index : Float} {fault : RuntimeFault}
    (h : elementAt elements index = .error fault) : ¬ fault.Internal := by
  unfold elementAt at h
  simp only at h
  split at h
  · cases h
    rintro ⟨⟩
  split at h
  · cases h
    rintro ⟨⟩
  split at h <;> cases h
  rintro ⟨⟩

namespace Builtin

variable {f : Builtin} {argument : Value} {reason : String}

theorem head?_append_string {s : String} {c : Char} (h : s.toList.head? = some c) (t : String) :
    (s ++ t).toList.head? = some c := by
  rw [String.toList_append, List.head?_append, h]
  rfl

/-- The reasons for refusing arguments are told apart by how they begin. -/
theorem head?_wrongCount (arguments : List Value) :
    (wrongCount arguments).toList.head? = some '1' := by
  have begins : "1 paramètre attendu (".toList.head? = some '1' := by decide +kernel
  unfold wrongCount
  exact head?_append_string (head?_append_string begins _) _

private theorem head?_of_apply (h : f.apply [argument] = .refuses reason) :
    reason.toList.head? = some 'u' := by
  have number : "un nombre est attendu (".toList.head? = some 'u' := by decide +kernel
  have measurable : "un tableau ou une chaîne est attendu (".toList.head? = some 'u' := by
    decide +kernel
  cases f with
  | ecrire => cases h
  | arrondir =>
      cases argument with
      | number value => cases h
      | null | boolean | text | array | function | void =>
          cases h
          exact head?_append_string (head?_append_string number _) _
  | taille =>
      cases argument with
      | array elements => cases h
      | text content => cases h
      | null | boolean | number | function | void =>
          cases h
          exact head?_append_string (head?_append_string measurable _) _

theorem ne_wrongCount_of_apply (h : f.apply [argument] = .refuses reason)
    (arguments : List Value) : reason ≠ wrongCount arguments := by
  rintro rfl
  have begins := (head?_of_apply h).symm.trans (head?_wrongCount arguments)
  simp at begins

end Builtin

private theorem StopsCall.not_internal {span : Span} {fault : Located RuntimeFault}
    (h : StopsCall span fault) : ¬ fault.fault.Internal := by
  cases h with
  | refused refuses =>
      generalize named : RuntimeFault.library _ _ = library
      rintro ⟨name, arguments⟩
      · cases named
        exact Builtin.ne_wrongCount_of_apply refuses arguments rfl
      · cases named
  | tooDeep => rintro ⟨⟩

def Terms.sensible : Terms := ⟨fun fault => ¬ fault.fault.Internal, True⟩

private theorem Terms.sensible_suit {S : Stmt → Prop} {tokens : List Token}
    (code : Code S (·.WrittenIn tokens)) : Terms.sensible.Suit S (·.WrittenIn tokens) where
  toCode := code
  raised e written fault raises := by
    have operator := Expr.Everywhere.here written
    cases raises with
    | unary fails => exact Value.not_internal_of_unary fails
    | binary fails => exact Value.not_internal_of_binary operator.1 fails
    | element fails => exact not_internal_of_elementAt fails
    | call stops => exact stops.not_internal
    | undefined | undefinedTarget | readOnly | logicalLeft | logicalRight | notCallable | arity
    | notAnArray | indexNotNumber => rintro ⟨⟩
  stopped s _ fault raises := by cases raises <;> rintro ⟨⟩
  counts _ _ _ _ _ _ := trivial

/-! ## Declarations in a scope -/

namespace Frame

theorem binds_iff {frame : Frame} {name : String} :
    frame.binds name = true ↔ name ∈ frame.bindings.map Prod.fst := by
  simp [binds]

private theorem bind_of_not_mem {frame : Frame} {name : String}
    (new : name ∉ frame.bindings.map Prod.fst) (value : Value) :
    frame.bind name value = { frame with bindings := frame.bindings ++ [(name, value)] } := by
  have appended : ∀ bindings : List (String × Value), name ∉ bindings.map Prod.fst →
      bindIn name value bindings = bindings ++ [(name, value)] := by
    intro bindings
    induction bindings with
    | nil => exact fun _ => rfl
    | cons binding rest ih =>
        intro new
        rw [List.map_cons, List.mem_cons, not_or] at new
        rw [bindIn, if_neg (Ne.symm new.1), ih new.2, List.cons_append]
  rw [bind, appended _ new]

end Frame

def Name.FirstRepeatedIn (names : List Name) (name : Name) : Prop :=
  ∃ before after, names = before ++ name :: after ∧ (before.map Name.text).Nodup ∧
    name.text ∈ before.map Name.text

private theorem Name.nodup_or_firstRepeatedIn (names : List Name) :
    (names.map text).Nodup ∨ ∃ name, FirstRepeatedIn names name := by
  induction names using List.reverseRecOn with
  | nil => exact .inl List.nodup_nil
  | append_singleton names name ih =>
      rcases ih with distinct | ⟨first, before, after, rfl, rest⟩
      · by_cases member : name.text ∈ names.map text
        · exact .inr ⟨name, names, [], rfl, distinct, member⟩
        · refine .inl ?_
          rw [List.map_append, List.nodup_append]
          refine ⟨distinct, by simp, fun other inside last atEnd same => ?_⟩
          rw [List.map_singleton, List.mem_singleton] at atEnd
          exact member (atEnd ▸ same ▸ inside)
      · exact .inr ⟨first, before, after ++ [name], by simp, rest⟩

namespace Run

variable {scope : Scope} {m : Machine}

theorem declareIn_of_not_mem (present : scope.index < m.store.frames.size) {name : Name}
    (new : name.text ∉ (m.store.frame scope).bindings.map Prod.fst) (value : Value) :
    ∃ store, declareIn scope name value m = .done () { m with store := store } ∧
      store.frames.size = m.store.frames.size ∧ store.frame scope = { m.store.frame scope with
        bindings := (m.store.frame scope).bindings ++ [(name.text, value)] } := by
  refine ⟨m.store.bind scope name.text value, ?_, by simp [Store.bind, Store.modify], ?_⟩
  · have unbound : ¬ (m.store.frame scope).binds name.text = true := fun binds =>
      new (Frame.binds_iff.mp binds)
    simp only [declareIn, Store.define, if_neg unbound]
  · rw [Store.bind, Store.frame_modify_self _ _ present, Frame.bind_of_not_mem new]

private theorem declareAllIn_distinct {names : List Name} (values : List Value)
    (present : scope.index < m.store.frames.size)
    (distinct : ((m.store.frame scope).bindings.map Prod.fst ++ names.map Name.text).Nodup) :
    ∃ store, declareAllIn scope (names.zip values) m = .done () { m with store := store } ∧
      store.frame scope = { m.store.frame scope with
        bindings := (m.store.frame scope).bindings ++ (names.map Name.text).zip values } := by
  induction names generalizing values m with
  | nil => exact ⟨m.store, rfl, by simp⟩
  | cons name names ih =>
      cases values with
      | nil => exact ⟨m.store, rfl, by simp⟩
      | cons value values =>
          have new : name.text ∉ (m.store.frame scope).bindings.map Prod.fst := fun member =>
            (List.nodup_append.mp distinct).2.2 _ member _ (List.mem_cons_self ..) rfl
          obtain ⟨store, declared, size, frame⟩ := declareIn_of_not_mem present new value
          have others : ((store.frame scope).bindings.map Prod.fst ++
              names.map Name.text).Nodup := by
            simpa [frame] using distinct
          obtain ⟨store', declares, frame'⟩ := ih (m := { m with store := store }) values
            (size ▸ present) others
          refine ⟨store', (bind_done declared _).trans declares, ?_⟩
          simp [frame', frame]

private theorem declareAllIn_repeated {before after : List Name} {name : Name} {values : List Value}
    (present : scope.index < m.store.frames.size)
    (distinct : ((m.store.frame scope).bindings.map Prod.fst ++ before.map Name.text).Nodup)
    (again : name.text ∈ (m.store.frame scope).bindings.map Prod.fst ++ before.map Name.text)
    (enough : before.length < values.length) :
    ∃ n, declareAllIn scope ((before ++ name :: after).zip values) m =
      .failed ⟨name.span, .redeclaration name.text⟩ n := by
  induction before generalizing values m with
  | nil =>
      cases values with
      | nil => cases enough
      | cons value values =>
          have binds := Frame.binds_iff.mpr (by simpa using again)
          refine ⟨m, ?_⟩
          change Run.bind _ _ m = _
          simp only [Run.bind, declareIn, Store.define, if_pos binds]
  | cons first before ih =>
      cases values with
      | nil => cases enough
      | cons value values =>
          have new : first.text ∉ (m.store.frame scope).bindings.map Prod.fst := fun member =>
            (List.nodup_append.mp distinct).2.2 _ member _ (List.mem_cons_self ..) rfl
          obtain ⟨store, declared, size, frame⟩ := declareIn_of_not_mem present new value
          obtain ⟨n, fails⟩ := ih (m := { m with store := store }) (size ▸ present)
            (by simpa [frame] using distinct) (by simpa [frame] using again)
            (Nat.lt_of_succ_lt_succ enough)
          exact ⟨n, (bind_done declared _).trans fails⟩

end Run

/-! ## Calls -/

/--
How a call goes on that the limit allows.  If the names of the parameters are
distinct, the body is begun, in a new scope around which are those of the function,
and there each parameter is bound to its argument and nothing else is bound.
Otherwise the first parameter that repeats another is at fault.
-/
inductive Closure.Begins (limit fuel : Nat) (f : Closure) (values : List Value) (span : Span)
    (m : Machine) : Prop
  | bound {n : Machine} (distinct : (f.parameters.map Name.text).Nodup)
      (next : ∀ y, Moment.LeadsTo limit ⟨fuel + 1, .call (.closure f) values span, m⟩ y ↔
        y = ⟨fuel, .statements f.body, n⟩)
      (new : n.scope = ⟨m.store.frames.size⟩)
      (frame : n.store.frame n.scope =
        ⟨m.store.chain f.scope, false, (f.parameters.map Name.text).zip values⟩)
  | repeated {parameter : Name} {n : Machine}
      (first : parameter.FirstRepeatedIn f.parameters)
      (fails : invoke limit (fuel + 1) (.closure f) values span m =
        .failed ⟨parameter.span, .redeclaration parameter.text⟩ n)

namespace Closure

variable {limit fuel : Nat} {f : Closure} {values : List Value} {span : Span} {m : Machine}

private theorem begins_of_nodup (shallow : m.depth < limit)
    (distinct : (f.parameters.map Name.text).Nodup) : f.Begins limit fuel values span m := by
  let noted := m.note (.calling f.name values.length)
  let opened := noted.deepen.enter f.scope
  have admitted : guardDepth limit f.name span noted = .done () noted := guardDepth_of_lt shallow
  have frame : opened.store.frame opened.scope = .empty (m.store.chain f.scope) :=
    Machine.frame_enter _ _
  obtain ⟨store, declared, bound⟩ := Run.declareAllIn_distinct values
    (noted.deepen.scope_enter_lt f.scope) (by rw [frame]; exact distinct)
  rw [frame] at bound
  refine .bound (n := { opened with store := store }) distinct (fun y => ⟨fun step => ?_, ?_⟩)
    rfl bound
  · cases step with
    | callBody admitted' declared' =>
        obtain ⟨-, rfl⟩ := guardDepth_done admitted'
        cases declared.symm.trans declared'
        rfl
  · rintro rfl
    exact .callBody admitted declared

private theorem begins_of_firstRepeatedIn (shallow : m.depth < limit)
    (count : f.parameters.length = values.length) {parameter : Name}
    (first : parameter.FirstRepeatedIn f.parameters) : f.Begins limit fuel values span m := by
  obtain ⟨before, after, parameters, distinct, again⟩ := first
  let noted := m.note (.calling f.name values.length)
  let opened : Machine := { noted with store := (m.store.newChild f.scope).2 }
  have admitted : guardDepth limit f.name span noted = .done () noted := guardDepth_of_lt shallow
  have frame : opened.store.frame (m.enter f.scope).scope = .empty (m.store.chain f.scope) :=
    m.frame_enter f.scope
  have enough : before.length < values.length := by
    rw [← count, parameters, List.length_append, List.length_cons]
    omega
  obtain ⟨n, fails⟩ : ∃ n, Run.declareAllIn (m.enter f.scope).scope (f.parameters.zip values)
      opened = .failed ⟨parameter.span, .redeclaration parameter.text⟩ n := by
    rw [parameters]
    exact Run.declareAllIn_repeated (m.scope_enter_lt f.scope) (by rw [frame]; exact distinct)
      (by rw [frame]; exact again) enough
  refine .repeated (n := n) ⟨before, after, parameters, distinct, again⟩ ?_
  simp only [invoke, Run.record_bind]
  unfold invokeClosure
  refine (Run.bind_done admitted _).trans ?_
  rw [Run.newScope_bind]
  exact Run.bind_failed fails _

theorem begins (shallow : m.depth < limit) (count : f.parameters.length = values.length) :
    f.Begins limit fuel values span m := by
  rcases Name.nodup_or_firstRepeatedIn f.parameters with distinct | ⟨parameter, first⟩
  · exact begins_of_nodup shallow distinct
  · exact begins_of_firstRepeatedIn shallow count first

end Closure

/-! ## Moments -/

def Function.TakesItsParameters : Function → Prop
  | .builtin _ arity => arity = 1
  | .closure f => f.arity = f.parameters.length

def Function.BelongsTo (program : Program) (f : Function) : Prop :=
  f.From (·.PartOf program) ∧ f.TakesItsParameters

theorem Function.From.belongsTo {program : Program} {f : Function}
    (h : f.From (·.PartOf program)) : f.BelongsTo program := by
  refine ⟨h, ?_⟩
  cases h with
  | builtin f => cases f <;> rfl
  | closure _ counted _ => exact counted

/--
What a run relies on at a moment, where the tokens are those of the text and the
program is the one that they make.
-/
structure Moment.Regular (limit : Nat) (tokens : List Token) (program : Program) (x : Moment) :
    Prop where
  unary {span : Span} {op : Kind} {operand : Expr} :
    x.task = .expression (.unary span op operand) →
    (op = .symbol .minus ∨ op = .symbol .bang) ∧
      ∃ token ∈ tokens, token.kind = op ∧ token.lexeme = op.written
  binary {span : Span} {op : Kind} {left right : Expr} :
    x.task = .expression (.binary span op left right) →
    (op.isBinary = true ∧ ∀ a b other, Value.binary op a b ≠ .error (.notAnOperator other)) ∧
      ∃ token ∈ tokens, token.kind = op ∧ token.lexeme = op.written
  logical {span : Span} {op : Kind} {spelling : String} {left right : Expr} :
    x.task = .expression (.logical span op spelling left right) →
    ∃ keyword, (keyword = .et ∨ keyword = .ou) ∧ op = .keyword keyword ∧
      keyword.IsSpelled spelling.toList ∧
      ∃ token ∈ tokens, token.kind = op ∧ token.lexeme = spelling
  heap : x.machine.store.Each (Value.Holds (Function.BelongsTo program))
  call {f : Function} {values : List Value} {span : Span} : x.task = .call f values span →
    f.BelongsTo program ∧ f.arity = values.length
  paired {f : Closure} {values : List Value} {span : Span} :
    x.task = .call (.closure f) values span →
    (f.parameters.zip values).map Prod.fst = f.parameters ∧
      (f.parameters.zip values).map Prod.snd = values
  begun {f : Closure} {values : List Value} {span : Span} {fuel : Nat} :
    x.task = .call (.closure f) values span → x.fuel = fuel + 1 → x.machine.depth < limit →
    f.Begins limit fuel values span x.machine
  accepted {f : Builtin} {arity : Nat} {values : List Value} {span : Span} :
    x.task = .call (.builtin f arity) values span →
    ∀ arguments, f.apply values ≠ .refuses (Builtin.wrongCount arguments)
  counter {counter : Name} {step last : Float} {body : List Stmt} {turns : Nat}
    {current : Float} : x.task = .countTurns counter step last body turns current →
    ∃ n, Run.declare counter (.number current) (x.machine.enter x.machine.scope) = .done () n ∧
      (n.store.frame n.scope).bindings = [(counter.text, .number current)]

theorem Moment.From.regular {source : String} {tokens : List Token} {program : Program}
    {limit : Nat} {x : Moment} (scanned : scan source = .ok tokens)
    (h : x.From (·.PartOf program) (·.WrittenIn tokens)) : x.Regular limit tokens program := by
  obtain ⟨fuel, task, m⟩ := x
  obtain ⟨origin, store⟩ := h
  constructor
  case unary =>
    rintro span op operand ⟨⟩
    obtain ⟨sign, token, member, rfl⟩ := Expr.Everywhere.here origin
    have sort := Kind.eq_of_isSign sign
    refine ⟨sort, token, member, rfl, ?_⟩
    rcases sort with kind | kind <;> rw [lexeme_of_scan_symbol scanned member kind, kind] <;> rfl
  case binary =>
    rintro span op left right ⟨⟩
    obtain ⟨binary, token, member, rfl⟩ := Expr.Everywhere.here origin
    refine ⟨⟨binary, fun a b other fails => ?_⟩, token, member, rfl, ?_⟩
    · exact Value.not_internal_of_binary binary fails (.notAnOperator other)
    · obtain ⟨symbol, kind⟩ := Kind.eq_symbol_of_isBinary binary
      rw [lexeme_of_scan_symbol scanned member kind, kind]
      rfl
  case logical =>
    rintro span op spelling left right ⟨⟩
    obtain ⟨logical, token, member, rfl, rfl⟩ := Expr.Everywhere.here origin
    obtain ⟨keyword, sort, kind⟩ := Kind.eq_of_isLogical logical
    exact ⟨keyword, sort, kind, isSpelled_of_scan scanned member kind, token, member, rfl, rfl⟩
  case heap => exact store.mono fun value held => held.mono fun f made => made.belongsTo
  case call =>
    rintro f values span ⟨⟩
    exact ⟨origin.1.belongsTo, origin.2.2⟩
  case paired =>
    rintro f values span ⟨⟩
    have count : f.parameters.length = values.length := origin.1.belongsTo.2.symm.trans origin.2.2
    exact ⟨List.map_fst_zip (Nat.le_of_eq count), List.map_snd_zip (Nat.le_of_eq count.symm)⟩
  case begun =>
    rintro f values span fuel ⟨⟩ ⟨⟩ shallow
    exact Closure.begins shallow (origin.1.belongsTo.2.symm.trans origin.2.2)
  case accepted =>
    rintro f arity values span ⟨⟩ arguments refused
    have count : 1 = values.length := origin.1.belongsTo.2.symm.trans origin.2.2
    obtain ⟨value, rfl⟩ := List.length_eq_one_iff.mp count.symm
    exact Builtin.ne_wrongCount_of_apply refused arguments rfl
  case counter =>
    rintro counter step last body turns current ⟨⟩
    have frame := m.frame_enter m.scope
    have new : counter.text ∉
        ((m.enter m.scope).store.frame (m.enter m.scope).scope).bindings.map Prod.fst := by
      simp [frame, Frame.empty]
    obtain ⟨store, declared, _, bound⟩ := Run.declareIn_of_not_mem (m.scope_enter_lt m.scope) new
      (.number current)
    refine ⟨_, declared, ?_⟩
    simp [bound, frame, Frame.empty]

/-! ## Runs -/

/--
Whatever text is run, under whatever limits: all states of its run are regular, and
it leaves nothing else behind, also when it fails.
-/
theorem interpret_regular {limits : Limits} {source : String} {tokens : List Token}
    {program : Program} (scanned : scan source = .ok tokens)
    (parsed : parse limits.nesting tokens = .ok program) (fuel : Nat) :
    (∀ (journal : Array Event) (x : Moment),
      Relation.ReflTransGen (Moment.LeadsTo limits.callDepth) ⟨fuel, .statements program,
        (World.fresh limits).2.machine (World.fresh limits).1 journal⟩ x →
      x.Regular limits.callDepth tokens program) ∧
    ∀ report, interpret fuel limits source = some report →
      report.world.store.Each (Value.Holds (Function.BelongsTo program)) ∧
      ∀ fault, report.diagnostic = some (.runtime fault) → ¬ fault.fault.Internal := by
  have code := code_of_parse parsed
  have each : ∀ s ∈ program, s.PartOf program := fun _ => Stmt.partOf_of_mem
  have store := World.fresh_from (·.PartOf program) limits
  refine ⟨fun journal x path => ?_, fun report ran => ?_⟩
  · exact (Moment.comes_from_of_path code path ⟨each, store⟩).regular scanned
  · obtain ⟨journal, runs⟩ := interpret_eq_runProgram scanned parsed
    rw [runs] at ran
    have left := World.runProgram_from code each store ran
    refine ⟨left.mono fun value held => held.mono fun f made => made.belongsTo, ?_⟩
    intro fault failed
    have endsOn : EndsOn .sensible ((World.fresh limits).2.runProgram fuel
        (World.fresh limits).1 journal program) :=
      World.runProgram_endsOn (Terms.sensible_suit code) each store journal (.inl trivial)
    rw [ran] at endsOn
    cases endsOn with
    | well well => cases well.symm.trans failed
    | faulty faulty permitted =>
        cases faulty.symm.trans failed
        exact permitted

/-- A function whose body applies two operators to what it is called with. -/
theorem interpret_regular_in_call :
    let source := "fonction f(a) retourner !a et vrai fin f(faux)"
    let tokens : List Token :=
      [⟨.keyword .fonction, "fonction", ⟨0, 8, 1⟩⟩, ⟨.identifier "f", "f", ⟨9, 10, 1⟩⟩,
        ⟨.symbol .leftParen, "(", ⟨10, 11, 1⟩⟩, ⟨.identifier "a", "a", ⟨11, 12, 1⟩⟩,
        ⟨.symbol .rightParen, ")", ⟨12, 13, 1⟩⟩, ⟨.keyword .retourner, "retourner", ⟨14, 23, 1⟩⟩,
        ⟨.symbol .bang, "!", ⟨24, 25, 1⟩⟩, ⟨.identifier "a", "a", ⟨25, 26, 1⟩⟩,
        ⟨.keyword .et, "et", ⟨27, 29, 1⟩⟩, ⟨.keyword .vrai, "vrai", ⟨30, 34, 1⟩⟩,
        ⟨.keyword .fin, "fin", ⟨35, 38, 1⟩⟩, ⟨.identifier "f", "f", ⟨39, 40, 1⟩⟩,
        ⟨.symbol .leftParen, "(", ⟨40, 41, 1⟩⟩, ⟨.keyword .faux, "faux", ⟨41, 45, 1⟩⟩,
        ⟨.symbol .rightParen, ")", ⟨45, 46, 1⟩⟩, .endAt ⟨46, 46, 1⟩]
    let negation : Expr :=
      .unary ⟨24, 26, 1⟩ (.symbol .bang) (.lookup ⟨25, 26, 1⟩ ⟨"a", ⟨25, 26, 1⟩⟩)
    let conjunction : Expr := .logical ⟨24, 34, 1⟩ (.keyword .et) "et" negation
      (.literal ⟨30, 34, 1⟩ (.boolean true))
    let program : Program :=
      [.function ⟨0, 38, 1⟩ ⟨"f", ⟨9, 10, 1⟩⟩ [⟨"a", ⟨11, 12, 1⟩⟩] [.give ⟨14, 34, 1⟩ conjunction],
        .expression (.call ⟨39, 40, 1⟩ ⟨40, 46, 1⟩ (.lookup ⟨39, 40, 1⟩ ⟨"f", ⟨39, 40, 1⟩⟩)
          [.literal ⟨41, 45, 1⟩ (.boolean false)])]
    let start : Moment :=
      ⟨9, .statements program, (World.fresh {}).2.machine (World.fresh {}).1 #[]⟩
    scan source = .ok tokens ∧ parse 256 tokens = .ok program ∧
      (∃ x n, Relation.ReflTransGen (Moment.LeadsTo 128) start x ∧
        x.Regular 128 tokens program ∧
        Moment.LeadsTo 128 x ⟨8, .statements [.give ⟨14, 34, 1⟩ conjunction], n⟩ ∧
        (n.store.frame n.scope).bindings = [("a", .boolean false)]) ∧
      (∃ x, Relation.ReflTransGen (Moment.LeadsTo 128) start x ∧
        x.task = .expression negation ∧ x.machine.depth = 1 ∧ x.Regular 128 tokens program) ∧
      ∃ report, interpret 9 {} source = some report ∧
        report.world.store.Each (Value.Holds (Function.BelongsTo program)) := by
  intro source tokens negation conjunction program start
  have scanned : scan source = .ok tokens :=
    eq_ok_of_toOption (a := tokens) (by decide +kernel)
  have parsed : parse 256 tokens = .ok program := by cbv
  have ends : (interpret 9 {} source).isSome = true := by decide +kernel
  obtain ⟨report, ran⟩ := Option.isSome_iff_exists.mp ends
  obtain ⟨regular, left⟩ := @interpret_regular {} source tokens program scanned parsed 9
  let parameter : Name := ⟨"a", ⟨11, 12, 1⟩⟩
  have calling : ∃ f m, Relation.ReflTransGen (Moment.LeadsTo 128) start
      ⟨9, .call (.closure f) [.boolean false] ⟨39, 40, 1⟩, m⟩ ∧ f.parameters = [parameter] ∧
        f.body = [.give ⟨14, 34, 1⟩ conjunction] ∧ m.depth = 0 :=
    ⟨_, _, .head (.otherStatements rfl) (.head .firstStatement (.head (.leading rfl)
      (.single (.call rfl rfl rfl)))), rfl, rfl, rfl⟩
  have inside : ∃ x, Relation.ReflTransGen (Moment.LeadsTo 128) start x ∧
      x.task = .expression negation ∧ x.machine.depth = 1 :=
    ⟨_, .head (.otherStatements rfl) (.head .firstStatement (.head (.leading rfl)
      (.head (.call rfl rfl rfl) (.head (.callBody rfl rfl) (.head .firstStatement
        (.head (.leading rfl) (.single .logicalLeft))))))), rfl, rfl⟩
  obtain ⟨f, m, path, parameters, body, depth⟩ := calling
  obtain ⟨x, path', task, depth'⟩ := inside
  refine ⟨scanned, parsed, ?_, ⟨x, path', task, depth', regular #[] x path'⟩, report, ran,
    (left report ran).1⟩
  have here := regular #[] _ path
  have begins := here.begun rfl rfl (Nat.lt_of_lt_of_eq (depth ▸ Nat.zero_lt_succ 127) rfl)
  cases begins with
  | @bound n _ next _ frame =>
      refine ⟨_, n, path, here, body ▸ (next _).mpr rfl, ?_⟩
      rw [frame, parameters]
      rfl
  | repeated first =>
      obtain ⟨before, after, same, _, again⟩ := first
      rw [parameters] at same
      cases before with
      | nil => cases again
      | cons _ before => cases before <;> cases same

end Ardoise
