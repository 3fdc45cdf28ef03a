import Ardoise.Proofs.Moments
import Ardoise.Proofs.Sessions.Shape

/-!
# Scopes keep their names

What a run does to the store is made of three kinds of steps: it assigns to
names that are bound already, it opens scopes, and it declares names.  Names are
declared in scopes that were opened meanwhile, and by a declaration in the scope
in use.  So an expression, and a statement that is no declaration, leaves every
scope that was there before with the names it had; a declaration adds its own
name at most.  All this holds at every moment of every run of a session, and the
library is never anything but what it was built as.
-/

namespace Ardoise

/-! ## Names bound in a frame -/

private theorem Frame.binds_bind (frame : Frame) (name other : String) (value : Value) :
    (frame.bind name value).binds other = (other == name || frame.binds other) := by
  rw [binds_eq_isSome_get?, binds_eq_isSome_get?]
  by_cases same : other = name
  · subst same
    simp
  · simp [same]

namespace Store

theorem binds_bind_iff (s : Store) (scope a : Scope) (name x : String) (value : Value) :
    ((s.bind scope name value).frame a).binds x = true ↔
      (s.frame a).binds x = true ∨
        a = scope ∧ scope.index < s.frames.size ∧ x = name := by
  unfold Store.bind
  by_cases same : a = scope
  · subst same
    by_cases present : a.index < s.frames.size
    · rw [frame_modify_self s _ present, Frame.binds_bind]
      simp [present, or_comm]
    · simp [frame, modify, Array.getD, present]
  · rw [frame_modify_of_ne s _ same]
    simp [same]

theorem binds_of_holder? {s : Store} {scope holder : Scope} {name : String}
    (h : s.holder? scope name = some holder) : (s.frame holder).binds name = true :=
  List.find?_some (p := fun a => (s.frame a).binds name) h

theorem binds_assign {s t : Store} {scope : Scope} {name : String} {value : Value}
    (h : s.assign scope name value = .ok t) (a : Scope) (x : String) :
    (t.frame a).binds x = true ↔ (s.frame a).binds x = true := by
  unfold Store.assign at h
  split at h
  · cases h
  · rename_i holder found
    split at h
    · cases h
    · cases h
      rw [binds_bind_iff]
      constructor
      · rintro (bound | ⟨rfl, _, rfl⟩)
        · exact bound
        · exact binds_of_holder? found
      · exact .inl

theorem binds_define {s t : Store} {scope : Scope} {name : String} {value : Value}
    (h : s.define scope name value = .ok t) (a : Scope) (x : String) :
    (t.frame a).binds x = true ↔
      (s.frame a).binds x = true ∨ a = scope ∧ scope.index < s.frames.size ∧ x = name := by
  unfold Store.define at h
  split at h
  · cases h
  · cases h
    exact binds_bind_iff s scope a name x value

theorem binds_newChild (s : Store) (outer : Scope) {a : Scope} (present : a.index < s.frames.size) :
    (s.newChild outer).2.frame a = s.frame a :=
  frame_push_of_lt s _ present

theorem size_bind (s : Store) (scope : Scope) (name : String) (value : Value) :
    (s.bind scope name value).frames.size = s.frames.size := by
  simp [Store.bind, modify]

theorem size_assign {s t : Store} {scope : Scope} {name : String} {value : Value}
    (h : s.assign scope name value = .ok t) : t.frames.size = s.frames.size := by
  unfold Store.assign at h
  split at h
  · cases h
  · split at h
    · cases h
    · cases h
      exact size_bind s _ name value

theorem size_define {s t : Store} {scope : Scope} {name : String} {value : Value}
    (h : s.define scope name value = .ok t) : t.frames.size = s.frames.size := by
  unfold Store.define at h
  split at h
  · cases h
  · cases h
    exact size_bind s scope name value

/--
The second store comes from the first by assignments, by opening scopes, and by
declarations of those names in those scopes that `may` allows.
-/
inductive Changes (may : Scope → String → Prop) : Store → Store → Prop
  | refl (s : Store) : Changes may s s
  | assign {s t u : Store} {scope : Scope} {name : String} {value : Value}
      (before : Changes may s t) (assigned : t.assign scope name value = .ok u) : Changes may s u
  | openScope {s t : Store} (before : Changes may s t) (outer : Scope) :
      Changes may s (t.newChild outer).2
  | define {s t u : Store} {scope : Scope} {name : String} {value : Value}
      (before : Changes may s t) (allowed : may scope name)
      (defined : t.define scope name value = .ok u) : Changes may s u

namespace Changes

variable {may : Scope → String → Prop} {r s t : Store}

theorem trans (first : Changes may r s) (second : Changes may s t) : Changes may r t := by
  induction second with
  | refl => exact first
  | assign _ assigned ih => exact .assign ih assigned
  | openScope _ outer ih => exact .openScope ih outer
  | define _ allowed defined ih => exact .define ih allowed defined

theorem mono {wider : Scope → String → Prop} (h : Changes may s t)
    (weaker : ∀ a x, may a x → wider a x) : Changes wider s t := by
  induction h with
  | refl => exact .refl _
  | assign _ assigned ih => exact .assign ih assigned
  | openScope _ outer ih => exact .openScope ih outer
  | define _ allowed defined ih => exact .define ih (weaker _ _ allowed) defined

theorem size_le (h : Changes may s t) : s.frames.size ≤ t.frames.size := by
  induction h with
  | refl => exact Nat.le_refl _
  | assign _ assigned ih => rw [size_assign assigned]; exact ih
  | openScope _ outer ih =>
      simp only [newChild, push, Array.size_push]
      omega
  | define _ _ defined ih => rw [size_define defined]; exact ih

theorem binds (h : Changes may s t) {a : Scope} (present : a.index < s.frames.size) {x : String}
    (bound : (s.frame a).binds x = true) : (t.frame a).binds x = true := by
  induction h with
  | refl => exact bound
  | assign _ assigned ih => exact (binds_assign assigned a x).mpr ih
  | openScope before outer ih =>
      rw [binds_newChild _ _ (Nat.lt_of_lt_of_le present before.size_le)]
      exact ih
  | define _ _ defined ih => exact (binds_define defined a x).mpr (.inl ih)

theorem binds_or (h : Changes may s t) {a : Scope} (present : a.index < s.frames.size)
    {x : String} (bound : (t.frame a).binds x = true) : (s.frame a).binds x = true ∨ may a x := by
  induction h with
  | refl => exact .inl bound
  | assign _ assigned ih => exact ih ((binds_assign assigned a x).mp bound)
  | openScope before outer ih =>
      rw [binds_newChild _ _ (Nat.lt_of_lt_of_le present before.size_le)] at bound
      exact ih bound
  | define _ allowed defined ih =>
      rcases (binds_define defined a x).mp bound with earlier | ⟨rfl, _, rfl⟩
      · exact ih earlier
      · exact .inr allowed

end Changes

end Store

/-! ## What expressions and statements change -/

theorem Outcome.Leaves.and {α : Type} {P Q : Machine → Prop} {o : Outcome α} (h : o.Leaves P)
    (h' : o.Leaves Q) : o.Leaves fun m => P m ∧ Q m := by
  cases o with
  | done a m => exact ⟨h, h'⟩
  | failed fault m => exact ⟨h, h'⟩
  | exhausted => trivial

namespace Machine

/--
The same scope is in use, and every scope of `m` binds the names it did.  Of what
these are bound to, only assignments changed anything: names were declared in new
scopes alone.
-/
structure KeepsNames (m n : Machine) : Prop where
  scope : n.scope = m.scope
  names (a : Scope) (x : String) : a.index < m.store.frames.size →
    ((n.store.frame a).binds x = true ↔ (m.store.frame a).binds x = true)
  changes : m.store.Changes (fun a _ => m.store.frames.size ≤ a.index) n.store

structure MayDeclare (name : String) (m n : Machine) : Prop where
  scope : n.scope = m.scope
  kept (a : Scope) (x : String) : a.index < m.store.frames.size →
    (m.store.frame a).binds x = true → (n.store.frame a).binds x = true
  added (a : Scope) (x : String) : a.index < m.store.frames.size →
    (n.store.frame a).binds x = true →
    (m.store.frame a).binds x = true ∨ a = m.scope ∧ x = name
  changes : m.store.Changes
    (fun a x => m.store.frames.size ≤ a.index ∨ a = m.scope ∧ x = name) n.store

theorem KeepsNames.of_changes {m n : Machine} (scope : n.scope = m.scope)
    (changes : m.store.Changes (fun a _ => m.store.frames.size ≤ a.index) n.store) :
    m.KeepsNames n where
  scope := scope
  names a x present := by
    refine ⟨fun bound => ?_, changes.binds present⟩
    rcases changes.binds_or present bound with earlier | new
    · exact earlier
    · omega
  changes := changes

theorem MayDeclare.of_changes {name : String} {m n : Machine} (scope : n.scope = m.scope)
    (changes : m.store.Changes
      (fun a x => m.store.frames.size ≤ a.index ∨ a = m.scope ∧ x = name) n.store) :
    m.MayDeclare name n where
  scope := scope
  kept _ _ present := changes.binds present
  added a x present bound := by
    rcases changes.binds_or present bound with earlier | new | own
    · exact .inl earlier
    · omega
    · exact .inr own
  changes := changes

def Declares (m n : Machine) : Prop :=
  n.scope = m.scope ∧
    m.store.Changes (fun a _ => m.store.frames.size ≤ a.index ∨ a = m.scope) n.store

theorem KeepsNames.trans {a b c : Machine} (first : a.KeepsNames b) (second : b.KeepsNames c) :
    a.KeepsNames c := by
  have larger := first.changes.size_le
  refine .of_changes (second.scope.trans first.scope) (first.changes.trans ?_)
  exact second.changes.mono fun _ _ new => Nat.le_trans larger new

end Machine

open Machine in
theorem effects_names : Effects KeepsNames Declares where
  refl m := .of_changes rfl (.refl _)
  trans first second := first.trans second
  stmtTrans first second := by
    have larger := first.2.size_le
    refine ⟨second.1.trans first.1, first.2.trans (second.2.mono fun a _ allowed => ?_)⟩
    rw [first.1] at allowed
    exact allowed.imp_left (Nat.le_trans larger)
  lift h := ⟨h.scope, h.changes.mono fun _ _ => .inl⟩
  record m event := .of_changes rfl (.refl _)
  print m line := .of_changes rfl (.refl _)
  assign assigned := .of_changes rfl (.assign (.refl _) assigned)
  declare declared := ⟨rfl, .define (.refl _) (.inr rfl) declared⟩
  capture m := ⟨rfl, .refl _⟩
  leave {m n} outer inner := by
    refine .of_changes rfl (Store.Changes.trans (.openScope (.refl _) outer) ?_)
    -- the scope that was entered is itself a new one
    refine inner.2.mono fun a _ allowed => ?_
    rcases allowed with new | rfl
    · simp only [Machine.enter, Store.newChild, Store.push, Array.size_push] at new
      omega
    · exact Nat.le_refl _
  call inner := inner

/-! ## Statements that declare a name -/

namespace Machine

theorem KeepsNames.mayDeclare {m n : Machine} (h : m.KeepsNames n) (name : String) :
    m.MayDeclare name n :=
  .of_changes h.scope (h.changes.mono fun _ _ => .inl)

private theorem KeepsNames.leaves_declare {m n : Machine} (h : m.KeepsNames n) (name : Name)
    (value : Value) : (Run.declare name value n).Leaves (m.MayDeclare name.text) := by
  unfold Run.declare Run.declareIn
  split
  · rename_i store defined
    refine .of_changes h.scope ?_
    exact .define (h.changes.mono fun _ _ => .inl) (.inr ⟨h.scope, rfl⟩) defined
  · exact h.mayDeclare name.text

end Machine

open Run in
private theorem execute_mayDeclare {i : Invoke}
    (calls : ∀ f vs span, Within Machine.KeepsNames (i f vs span)) (fuel : Nat) {s : Stmt}
    {name : Name} (declares : s.declared? = some name) :
    Within (Machine.MayDeclare name.text) (execute i fuel s) := by
  have effects := effects_names
  -- what is done before the declaration keeps all names
  have declared : ∀ {r : Run Value} (event : Event), Within Machine.KeepsNames r →
      Within (Machine.MayDeclare name.text) (do
        Run.record event
        declare name (← r)
        return Flow.next) := by
    intro r event first m
    refine leaves_bind (effects.within_record event m) (fun _ k noted => ?_)
      fun _ h => h.mayDeclare name.text
    refine leaves_bind ((first k).mono fun _ => noted.trans) (fun value n reached => ?_)
      fun _ h => h.mayDeclare name.text
    exact leaves_bind (reached.leaves_declare name value) (fun _ _ h => h) fun _ h => h
  cases s with
  | declare span own value =>
      cases declares
      rw [execute]
      exact declared _ (effects.within_evaluate calls value)
  | function span own parameters body =>
      cases declares
      rw [execute]
      refine declared _ fun m => ?_
      exact Machine.KeepsNames.of_changes rfl (.refl _)
  | expression | print | block | branch | whileLoop | countLoop | give => cases declares

/-! ## Sessions -/

/-- The sessions that can come about at a desk, and what resets and further runs make of them. -/
inductive World.Hosts : World → Session → Prop
  | found {history : List Desk.Step} {desk : Desk} {number : Nat} {session : Session}
      (reachable : Desk.Reachable history desk) (found : desk.session? number = some session) :
      Hosts desk.world session
  | reset {world : World} {session : Session} (before : Hosts world session) :
      Hosts (world.reset session).2 (world.reset session).1
  | clearLines {world : World} {session : Session} (before : Hosts world session) :
      Hosts world.clearLines session
  | run {world : World} {session : Session} {fuel : Nat} {source : String} {report : Report}
      (before : Hosts world session) (ran : world.run fuel session source = some report) :
      Hosts report.world report.session

inductive World.Passes (world : World) (session : Session) (source : String) (m : Machine) : Prop
  | reached {tokens : List Token} {program : Program} {journal : Array Event} {fuel fuel' : Nat}
      {task : Task} (scanned : scan source = .ok tokens)
      (parsed : parse session.limits.nesting tokens = .ok program)
      (path : Relation.ReflTransGen (Moment.LeadsTo session.limits.callDepth)
        ⟨fuel, .statements program, world.machine session journal⟩ ⟨fuel', task, m⟩) :
      Passes world session source m

def Store.HasLibrary (store : Store) (library : Scope) : Prop :=
  store.frame library = World.initial.store.frame World.initial.library

namespace World

variable {world : World} {session : Session} {source : String} {m : Machine}

theorem Hosts.fits (hosts : world.Hosts session) : world.Intact ∧ session.Fits world := by
  induction hosts with
  | found reachable found =>
      have sound := reachable.sound
      exact ⟨sound.intact, (sound.fits found).1⟩
  | reset _ ih => exact ⟨ih.1.of_spares (reset_spares ih.2), reset_fits ih.2⟩
  | clearLines _ ih =>
      obtain ⟨intact, fits⟩ := ih
      exact ⟨⟨intact.library, intact.present, intact.frame⟩,
        ⟨fits.present, fits.apart, fits.outer, fits.isSealed, fits.captured⟩⟩
  | run _ ran ih =>
      obtain ⟨spared, fits, _⟩ := run_spares ih.1 ih.2 ran
      exact ⟨ih.1.of_spares spared, fits⟩

private theorem keeps_library (library : Scope) (limit : Nat) :
    Effects.Keeps limit (fun m n => m.Guards library → m.Spares library n)
      fun m => m.Guards library ∧ m.store.HasLibrary library where
  effect spares h := by
    have spared := spares h.1
    exact ⟨h.1.of_spares spared, spared.store.library.trans h.2⟩
  enter outer h := ⟨h.1.enter outer, (Store.frame_push_of_lt _ _ h.1.present).trans h.2⟩
  deepen _ h := ⟨⟨h.1.apart, h.1.present, h.1.isSealed⟩, h.2⟩

theorem Hosts.guards (hosts : world.Hosts session) (passes : world.Passes session source m) :
    m.Guards world.library ∧ m.store.HasLibrary world.library := by
  obtain ⟨intact, fits⟩ := hosts.fits
  obtain ⟨scanned, parsed, path⟩ := passes
  exact Moment.preserves_of_reflTransGen (effects_spares world.library)
    (keeps_library world.library _) path ⟨intact.guards fits _, intact.frame⟩

/--
At every moment of a run of a session, an expression and a statement that is no
declaration, however they end, leave the names of all scopes as they were and the
same scope in use; a declaration adds at most the name it declares, to the scope
in use.  The library is as it was built, before and after.
-/
theorem Hosts.names_kept (hosts : world.Hosts session) (passes : world.Passes session source m)
    (fuel : Nat) :
    let i := invoke session.limits.callDepth fuel
    let kept := fun n : Machine => m.KeepsNames n ∧ n.store.HasLibrary world.library
    m.store.HasLibrary world.library ∧
      (∀ e, (evaluate i e m).Leaves kept) ∧
      (∀ s, s.declared? = none → (execute i fuel s m).Leaves kept) ∧
      ∀ s name, s.declared? = some name → (execute i fuel s m).Leaves fun n =>
        m.MayDeclare name.text n ∧ n.store.HasLibrary world.library := by
  intro i kept
  obtain ⟨guards, library⟩ := hosts.guards passes
  have spares := effects_spares world.library
  have stays : ∀ n, (m.Guards world.library → m.Spares world.library n) →
      n.store.HasLibrary world.library :=
    fun n spared => (spared guards).store.library.trans library
  have invokes := spares.within_invoke session.limits.callDepth fuel
  have calls := effects_names.within_invoke session.limits.callDepth fuel
  refine ⟨library, fun e => ?_, fun s none => ?_, fun s name declares => ?_⟩
  · exact (effects_names.within_evaluate calls e m).and
      ((spares.within_evaluate invokes e m).mono stays)
  · have names := effects_names.within_execute_keeps calls fuel s m
    rw [Stmt.Keeps, none] at names
    exact names.and ((spares.within_execute invokes fuel s m).mono stays)
  · exact (execute_mayDeclare calls fuel declares m).and
      ((spares.within_execute invokes fuel s m).mono stays)

/-- Within the call of a function that was declared before. -/
theorem Hosts.names_kept_in_call :
    let source := "fonction f(a) fin f(vrai)"
    let desk := Desk.empty.openSession {}
    ∃ session m, desk.session? 0 = some session ∧ desk.world.Hosts session ∧
      desk.world.Passes session source m ∧ m.depth = 1 ∧
      ∀ e, (evaluate (invoke 128 9) e m).Leaves fun n =>
        m.KeepsNames n ∧ n.store.HasLibrary desk.world.library := by
  intro source desk
  have opened : Desk.empty.step 0 (.newSession {}) = some (desk, none) := rfl
  have found : desk.session? 0 = some (initial.newSession {}).1 := rfl
  have hosts : desk.world.Hosts (initial.newSession {}).1 :=
    .found (Desk.Reachable.empty.step opened) found
  have scanned : (scan source).toOption = some
      [⟨.keyword .fonction, "fonction", ⟨0, 8, 1⟩⟩, ⟨.identifier "f", "f", ⟨9, 10, 1⟩⟩,
        ⟨.symbol .leftParen, "(", ⟨10, 11, 1⟩⟩, ⟨.identifier "a", "a", ⟨11, 12, 1⟩⟩,
        ⟨.symbol .rightParen, ")", ⟨12, 13, 1⟩⟩, ⟨.keyword .fin, "fin", ⟨14, 17, 1⟩⟩,
        ⟨.identifier "f", "f", ⟨18, 19, 1⟩⟩, ⟨.symbol .leftParen, "(", ⟨19, 20, 1⟩⟩,
        ⟨.keyword .vrai, "vrai", ⟨20, 24, 1⟩⟩, ⟨.symbol .rightParen, ")", ⟨24, 25, 1⟩⟩,
        .endAt ⟨25, 25, 1⟩] := by
    decide +kernel
  have passes : ∃ m, desk.world.Passes (initial.newSession {}).1 source m ∧ m.depth = 1 := by
    cases tokens : scan source with
    | error fault =>
        rw [tokens] at scanned
        cases scanned
    | ok found =>
        rw [tokens] at scanned
        cases scanned
        -- the declaration, the statement behind it, its call, and the body that this runs
        exact ⟨_, @Passes.reached _ _ _ _ _ _ #[] 9 _ _ tokens rfl
          (.head (.otherStatements rfl) (.head .firstStatement (.head (.leading rfl)
            (.head (.call rfl rfl rfl) (.single (.callBody rfl rfl)))))), rfl⟩
  obtain ⟨m, passes, deep⟩ := passes
  exact ⟨_, m, found, hosts, passes, deep, (hosts.names_kept passes 9).2.1⟩

end World

end Ardoise
