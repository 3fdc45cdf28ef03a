import Ardoise.Machine
import Ardoise.Proofs.Simulation.Store

/-!
# Runs that do the same

A run simulates another when, from machines that match, both end in machines
that match: with related values, or with the same fault up to the blur, or
both for want of fuel.  Where the second has more fuel, it may go on when the
first has to stop.  What they note in the journal does not count.
-/

namespace Ardoise

structure Machine.Matches (p : Pairing) (m n : Machine) : Prop where
  store : m.store.Matches p n.store
  scope : p.Scopes m.scope n.scope
  depth : m.depth = n.depth
  lines : ∃ printed, m.lines = p.before ++ printed ∧ n.lines = p.before' ++ printed
  closures : p.Closures m.closures n.closures

inductive Outcome.Matches (p : Pairing) {α β : Type} (R : α → β → Prop) :
    Outcome α → Outcome β → Prop
  | done {a : α} {b : β} {m n : Machine} (values : R a b) (machines : m.Matches p n) :
      Matches p R (.done a m) (.done b n)
  | failed {m n : Machine} (fault : Located RuntimeFault) (machines : m.Matches p n) :
      Matches p R (.failed fault m) (.failed (blurFault p.blur fault) n)
  | exhausted (o : Outcome β) (spent : o = .exhausted ∨ p.generous = true) :
      Matches p R .exhausted o

namespace Run

def Simulates (p : Pairing) {α β : Type} (R : α → β → Prop) (r : Run α) (q : Run β) : Prop :=
  ∀ m n : Machine, m.Matches p n → (r m).Matches p R (q n)

variable {p : Pairing} {α β γ δ : Type} {R : α → β → Prop} {Q : γ → δ → Prop}

theorem simulates_pure {a : α} {b : β} (values : R a b) : Simulates p R (pure a) (pure b) :=
  fun _ _ machines => .done values machines

theorem Simulates.bind {r : Run α} {q : Run β} {f : α → Run γ} {g : β → Run δ}
    (first : Simulates p R r q) (second : ∀ {a b}, R a b → Simulates p Q (f a) (g b)) :
    Simulates p Q (r >>= f) (q >>= g) := by
  intro m n machines
  change (Run.bind r f m).Matches p Q (Run.bind q g n)
  unfold Run.bind
  have outcome := first m n machines
  generalize r m = x at outcome
  generalize q n = y at outcome
  cases outcome with
  | done values machines' => exact second values _ _ machines'
  | failed fault machines' => exact .failed fault machines'
  | exhausted o spent => exact .exhausted _ (spent.imp_left fun same => by rw [same])

theorem simulates_exhausted {q : Run β} (spent : q = Run.exhausted ∨ p.generous = true) :
    Simulates p R Run.exhausted q :=
  fun _ _ _ => .exhausted _ (spent.imp_left fun same => by rw [same]; rfl)

theorem simulates_fail (span : Span) (fault : RuntimeFault) :
    Simulates p R (fail span fault) (fail (p.blur.span span) (fault.blur p.blur)) :=
  fun _ _ machines => .failed ⟨span, fault⟩ machines

theorem simulates_ofExcept (span : Span) {x : Except RuntimeFault α} {y : Except RuntimeFault β}
    (results : ResultsMatch p R x y) :
    Simulates p R (ofExcept span x) (ofExcept (p.blur.span span) y) := by
  cases results with
  | ok related => exact simulates_pure related
  | error fault => exact simulates_fail span fault

theorem simulates_record (event event' : Event) :
    Simulates p (fun _ _ => True) (record event) (record event') :=
  fun _ _ machines => .done trivial ⟨machines.store, machines.scope, machines.depth, machines.lines,
    machines.closures⟩

theorem simulates_print (line : String) :
    Simulates p (fun _ _ => True) (print line) (print line) := by
  intro m n machines
  obtain ⟨printed, lines, lines'⟩ := machines.lines
  have further : ∃ printed, m.lines.push line = p.before ++ printed ∧
      n.lines.push line = p.before' ++ printed :=
    ⟨printed.push line, by simp [lines], by simp [lines']⟩
  exact .done trivial ⟨machines.store, machines.scope, machines.depth, further,
    machines.closures⟩

theorem simulates_lookup (name : Name) :
    Simulates p (Value.Matches p) (lookup name) (lookup (name.blur p.blur)) := by
  intro m n machines
  have found := machines.store.get machines.scope name.text
  simp only [lookup, Name.blur_text]
  generalize m.store.get m.scope name.text = x at found
  generalize n.store.get n.scope name.text = y at found
  cases found with
  | ok values => exact .done values machines
  | error fault => exact .failed ⟨name.span, fault⟩ machines

theorem simulates_assign (name : Name) {v w : Value} (values : v.Matches p w) :
    Simulates p (fun _ _ => True) (assign name v) (assign (name.blur p.blur) w) := by
  intro m n machines
  have assigned := machines.store.assign machines.scope name.text values
  simp only [assign, Name.blur_text]
  generalize m.store.assign m.scope name.text v = x at assigned
  generalize n.store.assign n.scope name.text w = y at assigned
  cases assigned with
  | ok stores =>
      exact .done trivial ⟨stores, machines.scope, machines.depth, machines.lines,
        machines.closures⟩
  | error fault => exact .failed ⟨name.span, fault⟩ machines

theorem simulates_declareIn {a b : Scope} (scopes : p.Scopes a b) (name : Name) {v w : Value}
    (values : v.Matches p w) :
    Simulates p (fun _ _ => True) (declareIn a name v) (declareIn b (name.blur p.blur) w) := by
  intro m n machines
  have declared := machines.store.define scopes name.text values
  simp only [declareIn, Name.blur_text]
  generalize m.store.define a name.text v = x at declared
  generalize n.store.define b name.text w = y at declared
  cases declared with
  | ok stores =>
      exact .done trivial ⟨stores, machines.scope, machines.depth, machines.lines,
        machines.closures⟩
  | error fault => exact .failed ⟨name.span, fault⟩ machines

theorem simulates_declare (name : Name) {v w : Value} (values : v.Matches p w) :
    Simulates p (fun _ _ => True) (declare name v) (declare (name.blur p.blur) w) :=
  fun _ _ machines => simulates_declareIn machines.scope name values _ _ machines

theorem simulates_declareAllIn {a b : Scope} (scopes : p.Scopes a b) (names : List Name)
    {vs ws : List Value} (values : List.Forall₂ (Value.Matches p) vs ws) :
    Simulates p (fun _ _ => True) (declareAllIn a (names.zip vs))
      (declareAllIn b ((names.map (Name.blur p.blur)).zip ws)) := by
  induction values generalizing names with
  | nil => simpa [declareAllIn] using simulates_pure trivial
  | cons value rest ih =>
      cases names with
      | nil => exact simulates_pure trivial
      | cons name names =>
          exact (simulates_declareIn scopes name value).bind fun _ => ih names

theorem simulates_newScope {a b : Scope} (scopes : p.Scopes a b) :
    Simulates p p.Scopes (newScope a) (newScope b) := by
  intro m n machines
  exact .done machines.store.next ⟨machines.store.push (machines.store.chain scopes),
    machines.scope, machines.depth, machines.lines, machines.closures⟩

theorem Simulates.inside {a b : Scope} (scopes : p.Scopes a b) {r : Run α} {q : Run β}
    (h : Simulates p R r q) : Simulates p R (inside a r) (inside b q) := by
  intro m n machines
  have outcome := h { m with scope := a } { n with scope := b }
    ⟨machines.store, scopes, machines.depth, machines.lines, machines.closures⟩
  simp only [Run.inside]
  generalize r { m with scope := a } = x at outcome
  generalize q { n with scope := b } = y at outcome
  cases outcome with
  | done values after =>
      exact .done values ⟨after.store, machines.scope, after.depth, after.lines, after.closures⟩
  | failed fault after =>
      exact .failed fault ⟨after.store, machines.scope, after.depth, after.lines, after.closures⟩
  | exhausted o spent => exact .exhausted _ (spent.imp_left fun same => by rw [same])

theorem Simulates.inChild {r : Run α} {q : Run β} (h : Simulates p R r q) :
    Simulates p R (inChild r) (inChild q) :=
  fun _ _ machines =>
    ((simulates_newScope machines.scope).bind fun scopes => h.inside scopes) _ _ machines

theorem Simulates.duringCall {r : Run α} {q : Run β} (h : Simulates p R r q) :
    Simulates p R (duringCall r) (duringCall q) := by
  intro m n machines
  have outcome := h { m with depth := m.depth + 1 } { n with depth := n.depth + 1 }
    ⟨machines.store, machines.scope, by simp [machines.depth], machines.lines, machines.closures⟩
  simp only [Run.duringCall]
  generalize r { m with depth := m.depth + 1 } = x at outcome
  generalize q { n with depth := n.depth + 1 } = y at outcome
  cases outcome with
  | done values after =>
      exact .done values
        ⟨after.store, after.scope, by simp [after.depth], after.lines, after.closures⟩
  | failed fault after =>
      exact .failed fault
        ⟨after.store, after.scope, by simp [after.depth], after.lines, after.closures⟩
  | exhausted o spent => exact .exhausted _ (spent.imp_left fun same => by rw [same])

theorem simulates_closeOver (name : String) (parameters : List Name) (body : List Stmt) :
    Simulates p (Value.Matches p) (closeOver name parameters body)
      (closeOver name (parameters.map (Name.blur p.blur)) (Stmt.blurAll p.blur body)) := by
  intro m n machines
  have closures := Function.Matches.closure name parameters.length parameters body
    machines.closures machines.scope
  rw [closeOver, closeOver, List.length_map]
  exact .done (.function closures)
    ⟨machines.store, machines.scope, machines.depth, machines.lines, machines.closures.succ⟩

end Run

end Ardoise
