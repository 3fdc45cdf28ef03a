import Ardoise.Proofs.Blur
import Ardoise.Proofs.Holdings
import Mathlib.Data.List.Forall2

/-!
# Stores that mean the same

Two runs of the same program open their scopes in the same order, but not under
the same numbers, and their stores may differ in what no scope in use can reach.
A `Pairing` fixes which scopes of one run stand for which of the other: a few
that were there before, and from then on the ones opened at the same time.
Closures are paired by the same rule.  Values, frames and stores match when they
agree up to the pairing.  The second run may execute a blurred form of the
program, so that the function bodies in its values are blurred as well.
-/

namespace Ardoise

structure Pairing where
  blur : Blur
  given : List (Scope × Scope)
  /-- The first scopes that the runs open themselves. -/
  firstScope : Nat
  firstScope' : Nat
  /-- The first closures that the runs make themselves. -/
  firstClosure : Nat
  firstClosure' : Nat
  /-- What was printed before the runs. -/
  before : Array String
  before' : Array String
  /-- Whether the second run may have more fuel than the first. -/
  generous : Bool
  given_lt : ∀ pair ∈ given, pair.1.index < firstScope ∧ pair.2.index < firstScope'
  given_unique : ∀ pair ∈ given, ∀ other ∈ given, pair.1 = other.1 ↔ pair.2 = other.2

namespace Pairing

variable (p : Pairing)

inductive Scopes : Scope → Scope → Prop
  | given {s t : Scope} (member : (s, t) ∈ p.given) : Scopes s t
  | opened (k : Nat) : Scopes ⟨p.firstScope + k⟩ ⟨p.firstScope' + k⟩

inductive Closures : Nat → Nat → Prop
  | made (k : Nat) : Closures (p.firstClosure + k) (p.firstClosure' + k)

inductive Fuels : Nat → Nat → Prop
  | same (fuel : Nat) : Fuels fuel fuel
  | more {fuel fuel' : Nat} (allowed : p.generous = true) (le : fuel ≤ fuel') : Fuels fuel fuel'

variable {p}

theorem Fuels.of {fuel fuel' : Nat} (h : fuel = fuel' ∨ p.generous = true ∧ fuel ≤ fuel') :
    p.Fuels fuel fuel' := by
  rcases h with rfl | ⟨allowed, le⟩
  · exact .same fuel
  · exact .more allowed le

theorem Fuels.zero {fuel' : Nat} (h : p.Fuels 0 fuel') : fuel' = 0 ∨ p.generous = true := by
  cases h with
  | same => exact .inl rfl
  | more allowed _ => exact .inr allowed

theorem Fuels.succ {fuel fuel' : Nat} (h : p.Fuels (fuel + 1) fuel') :
    ∃ k, fuel' = k + 1 ∧ p.Fuels fuel k := by
  cases h with
  | same => exact ⟨fuel, rfl, .same fuel⟩
  | more allowed le =>
      obtain ⟨k, rfl⟩ := Nat.exists_eq_add_of_lt le
      exact ⟨fuel + k, rfl, .more allowed (Nat.le_add_right fuel k)⟩

theorem given_ne_opened {s t : Scope} (member : (s, t) ∈ p.given) (k : Nat) :
    s ≠ ⟨p.firstScope + k⟩ ∧ t ≠ ⟨p.firstScope' + k⟩ := by
  have low := p.given_lt _ member
  constructor
  · rintro rfl
    exact absurd low.1 (Nat.not_lt.mpr (Nat.le_add_right _ _))
  · rintro rfl
    exact absurd low.2 (Nat.not_lt.mpr (Nat.le_add_right _ _))

theorem Scopes.eq_iff {s t s' t' : Scope} (first : p.Scopes s t) (second : p.Scopes s' t') :
    s = s' ↔ t = t' := by
  cases first with
  | given member =>
      cases second with
      | given member' => exact p.given_unique _ member _ member'
      | opened k =>
          have apart := given_ne_opened member k
          exact iff_of_false apart.1 apart.2
  | opened k =>
      cases second with
      | given member' =>
          have apart := given_ne_opened member' k
          exact iff_of_false apart.1.symm apart.2.symm
      | opened k' => simp

theorem Closures.eq_iff {m n m' n' : Nat} (first : p.Closures m n) (second : p.Closures m' n') :
    m = m' ↔ n = n' := by
  cases first
  cases second
  simp

theorem Closures.succ {m n : Nat} (h : p.Closures m n) : p.Closures (m + 1) (n + 1) := by
  cases h with
  | made k => exact .made (k + 1)

end Pairing

inductive Function.Matches (p : Pairing) : Function → Function → Prop
  | builtin (f : Builtin) (arity : Nat) : Matches p (.builtin f arity) (.builtin f arity)
  | closure {number number' : Nat} {scope scope' : Scope} (name : String) (arity : Nat)
      (parameters : List Name) (body : List Stmt) (numbers : p.Closures number number')
      (scopes : p.Scopes scope scope') :
      Matches p (.closure ⟨number, name, arity, parameters, body, scope⟩)
        (.closure ⟨number', name, arity, parameters.map (Name.blur p.blur),
          Stmt.blurAll p.blur body, scope'⟩)

inductive Value.Matches (p : Pairing) : Value → Value → Prop
  | null : Matches p .null .null
  | boolean (value : Bool) : Matches p (.boolean value) (.boolean value)
  | number (value : Float) : Matches p (.number value) (.number value)
  | text (content : String) : Matches p (.text content) (.text content)
  | array {xs ys : List Value} (elements : List.Forall₂ (Value.Matches p) xs ys) :
      Matches p (.array xs) (.array ys)
  | function {f g : Function} (functions : f.Matches p g) : Matches p (.function f) (.function g)
  | void : Matches p .void .void

namespace Function.Matches

variable {p : Pairing} {f g : Function}

private theorem name_eq (h : f.Matches p g) : f.name = g.name := by
  cases h <;> rfl

theorem arity_eq (h : f.Matches p g) : f.arity = g.arity := by
  cases h <;> rfl

theorem same_eq {f' g' : Function} (h : f.Matches p g) (h' : f'.Matches p g') :
    f.same f' = g.same g' := by
  cases h with
  | builtin => cases h' <;> rfl
  | closure _ _ _ _ numbers =>
      cases h' with
      | builtin => rfl
      | closure _ _ _ _ numbers' => simp [Function.same, numbers.eq_iff numbers']

end Function.Matches

namespace Value.Matches

variable {p : Pairing} {v w v' w' : Value}

theorem ofLiteral (p : Pairing) (literal : Literal) :
    (Value.ofLiteral literal).Matches p (Value.ofLiteral literal) := by
  cases literal <;> constructor

end Value.Matches

mutual

theorem Value.Matches.display_eq {p : Pairing} :
    (v : Value) → {w : Value} → v.Matches p w → v.display = w.display
  | _, _, .null => rfl
  | _, _, .boolean _ => rfl
  | _, _, .number _ => rfl
  | _, _, .text _ => rfl
  | .array xs, _, .array elements => by
      simp [Value.display, Value.Matches.displays_eq xs elements]
  | _, _, .function functions => by simp [Value.display, functions.name_eq]
  | _, _, .void => rfl

theorem Value.Matches.displays_eq {p : Pairing} :
    (vs : List Value) → {ws : List Value} → List.Forall₂ (Value.Matches p) vs ws →
      Value.displays vs = Value.displays ws
  | _, _, .nil => rfl
  | v :: vs, _, .cons first rest => by
      simp [Value.displays, Value.Matches.display_eq v first, Value.Matches.displays_eq vs rest]

end

mutual

theorem Value.Matches.same_eq {p : Pairing} :
    (v : Value) → {w v' w' : Value} → v.Matches p w → v'.Matches p w' → v.same v' = w.same w'
  | _, _, _, _, .null, h => by cases h <;> rfl
  | _, _, _, _, .boolean _, h => by cases h <;> rfl
  | _, _, _, _, .number _, h => by cases h <;> rfl
  | _, _, _, _, .text _, h => by cases h <;> rfl
  | .array xs, _, _, _, .array elements, h => by
      cases h with
      | array elements' =>
          simp [Value.same, Value.Matches.sameElements_eq xs elements elements']
      | _ => rfl
  | _, _, _, _, .function functions, h => by
      cases h with
      | function functions' => simp [Value.same, functions.same_eq functions']
      | _ => rfl
  | _, _, _, _, .void, h => by cases h <;> rfl

theorem Value.Matches.sameElements_eq {p : Pairing} :
    (vs : List Value) → {ws vs' ws' : List Value} → List.Forall₂ (Value.Matches p) vs ws →
      List.Forall₂ (Value.Matches p) vs' ws' →
      Value.sameElements vs vs' = Value.sameElements ws ws'
  | _, _, _, _, .nil, h => by cases h <;> rfl
  | v :: vs, _, _, _, .cons first rest, h => by
      cases h with
      | nil => rfl
      | cons first' rest' =>
          simp [Value.sameElements, Value.Matches.same_eq v first first',
            Value.Matches.sameElements_eq vs rest rest']

end

inductive ResultsMatch (p : Pairing) {α β : Type} (R : α → β → Prop) :
    Except RuntimeFault α → Except RuntimeFault β → Prop
  | ok {a : α} {b : β} (related : R a b) : ResultsMatch p R (.ok a) (.ok b)
  | error (fault : RuntimeFault) : ResultsMatch p R (.error fault) (.error (fault.blur p.blur))

/-! ## Operations on values -/

section Operations

variable {p : Pairing} {v w v' w' : Value}

private theorem resultsMatch_add (left : v.Matches p w) (right : v'.Matches p w') :
    ResultsMatch p (Value.Matches p) (v.add v') (w.add w') := by
  cases left with
  | number a =>
      cases right with
      | number b => exact .ok (.number _)
      | _ => exact .error _
  | text a =>
      cases right with
      | text b => exact .ok (.text _)
      | _ => exact .error _
  | _ => exact .error _

theorem resultsMatch_onNumbers (operation : String) {f : Float → Float → Value}
    (fixed : ∀ a b, (f a b).Matches p (f a b)) (left : v.Matches p w)
    (right : v'.Matches p w') :
    ResultsMatch p (Value.Matches p) (Value.onNumbers operation f v v')
      (Value.onNumbers operation f w w') := by
  cases left with
  | number a =>
      cases right with
      | number b => exact .ok (fixed a b)
      | _ => exact .error _
  | _ => exact .error _

theorem resultsMatch_binary (op : Kind) (left : v.Matches p w) (right : v'.Matches p w') :
    ResultsMatch p (Value.Matches p) (v.binary op v') (w.binary op w') := by
  have operation := Value.operation_binary op
  generalize Value.binary op = f at operation ⊢
  cases operation with
  | add => exact resultsMatch_add left right
  | arithmetic => exact resultsMatch_onNumbers _ (fun _ _ => .number _) left right
  | comparison => exact resultsMatch_onNumbers _ (fun _ _ => .boolean _) left right
  | equality =>
      simp only [Value.Matches.same_eq v left right]
      exact .ok (.boolean _)
  | none => exact .error _

theorem resultsMatch_unary (op : Kind) (operand : v.Matches p w) :
    ResultsMatch p (Value.Matches p) (v.unary op) (w.unary op) := by
  by_cases minus : op = .symbol .minus
  · subst minus
    cases operand with
    | number a => exact .ok (.number _)
    | _ => exact .error _
  · rw [v.unary_of_ne minus, w.unary_of_ne minus]
    cases operand with
    | boolean a => exact .ok (.boolean _)
    | _ => exact .error _

theorem resultsMatch_elementAt {vs ws : List Value}
    (elements : List.Forall₂ (Value.Matches p) vs ws)
    (index : Float) :
    ResultsMatch p (Value.Matches p) (elementAt vs index) (elementAt ws index) := by
  simp only [elementAt]
  split
  · exact .error _
  split
  · exact .error _
  rw [elements.length_eq]
  generalize (Number.form index).wholePart = position
  rcases Nat.lt_or_ge position vs.length with inside | outside
  · have inside' : position < ws.length := elements.length_eq ▸ inside
    rw [List.getElem?_eq_getElem inside, List.getElem?_eq_getElem inside']
    exact .ok (elements.get inside inside')
  · have outside' : ws.length ≤ position := elements.length_eq ▸ outside
    rw [List.getElem?_eq_none outside, List.getElem?_eq_none outside']
    exact .error _

end Operations

/-! ## Frames -/

def BindingsMatch (p : Pairing) : List (String × Value) → List (String × Value) → Prop :=
  List.Forall₂ fun x y => x.1 = y.1 ∧ x.2.Matches p y.2

structure Frame.Matches (p : Pairing) (f g : Frame) : Prop where
  outer : List.Forall₂ p.Scopes f.outer g.outer
  isSealed : f.isSealed = g.isSealed
  bindings : BindingsMatch p f.bindings g.bindings

inductive FoundMatch (p : Pairing) : Option Value → Option Value → Prop
  | none : FoundMatch p none none
  | some {v w : Value} (values : v.Matches p w) : FoundMatch p (some v) (some w)

theorem FoundMatch.isSome_eq {p : Pairing} {x y : Option Value} (h : FoundMatch p x y) :
    x.isSome = y.isSome := by
  cases h <;> rfl

namespace BindingsMatch

variable {p : Pairing} {xs ys : List (String × Value)}

theorem lookup (h : BindingsMatch p xs ys) (name : String) :
    FoundMatch p (xs.lookup name) (ys.lookup name) := by
  induction h with
  | nil => exact .none
  | @cons x y xs ys first rest ih =>
      obtain ⟨other, v⟩ := x
      obtain ⟨other', w⟩ := y
      obtain ⟨rfl, values⟩ : other = other' ∧ v.Matches p w := first
      by_cases same : name = other
      · subst same
        simpa using FoundMatch.some values
      · have differs : (name == other) = false := by simpa using same
        simpa [List.lookup_cons, differs] using ih

theorem bindIn (h : BindingsMatch p xs ys) (name : String) {v w : Value}
    (values : v.Matches p w) :
    BindingsMatch p (Frame.bindIn name v xs) (Frame.bindIn name w ys) := by
  induction h with
  | nil => exact .cons ⟨rfl, values⟩ .nil
  | @cons x y xs ys first rest ih =>
      obtain ⟨other, _⟩ := x
      obtain ⟨other', _⟩ := y
      obtain ⟨rfl, matched⟩ := first
      by_cases same : other = name
      · simp only [Frame.bindIn, same, if_true]
        exact .cons ⟨rfl, values⟩ rest
      · simp only [Frame.bindIn, same, if_false]
        exact .cons ⟨rfl, matched⟩ ih

end BindingsMatch

namespace Frame.Matches

variable {p : Pairing} {f g : Frame}

theorem get? (h : f.Matches p g) (name : String) :
    FoundMatch p (f.get? name) (g.get? name) :=
  h.bindings.lookup name

theorem binds_eq (h : f.Matches p g) (name : String) : f.binds name = g.binds name := by
  rw [Frame.binds_eq_isSome_get?, Frame.binds_eq_isSome_get?, (h.get? name).isSome_eq]

theorem bind (h : f.Matches p g) (name : String) {v w : Value} (values : v.Matches p w) :
    (f.bind name v).Matches p (g.bind name w) :=
  ⟨h.outer, h.isSealed, h.bindings.bindIn name values⟩

theorem empty {outer outer' : List Scope} (scopes : List.Forall₂ p.Scopes outer outer') :
    (Frame.empty outer).Matches p (.empty outer') :=
  ⟨scopes, rfl, .nil⟩

end Frame.Matches

/-! ## Stores -/

theorem Store.frame_of_size_le (store : Store) {scope : Scope}
    (absent : store.frames.size ≤ scope.index) : store.frame scope = .empty [] := by
  simp [Store.frame, Array.getD, Nat.not_lt.mpr absent]

structure Store.Matches (p : Pairing) (s t : Store) : Prop where
  /-- Both runs have opened equally many scopes. -/
  opened : ∃ k, s.frames.size = p.firstScope + k ∧ t.frames.size = p.firstScope' + k
  frame : ∀ {a b : Scope}, p.Scopes a b → (s.frame a).Matches p (t.frame b)

namespace Store.Matches

variable {p : Pairing} {s t : Store} {a b : Scope}

theorem next (h : s.Matches p t) : p.Scopes ⟨s.frames.size⟩ ⟨t.frames.size⟩ := by
  obtain ⟨k, size, size'⟩ := h.opened
  rw [size, size']
  exact .opened k

theorem present_iff (h : s.Matches p t) (scopes : p.Scopes a b) :
    a.index < s.frames.size ↔ b.index < t.frames.size := by
  obtain ⟨k, size, size'⟩ := h.opened
  cases scopes with
  | given member =>
      have low := p.given_lt _ member
      simp only at low
      omega
  | opened j => simp [size, size']

theorem chain (h : s.Matches p t) (scopes : p.Scopes a b) :
    List.Forall₂ p.Scopes (s.chain a) (t.chain b) :=
  .cons scopes (h.frame scopes).outer

theorem modify (h : s.Matches p t) (scopes : p.Scopes a b) {f g : Frame → Frame}
    (step : ∀ {x y : Frame}, x.Matches p y → (f x).Matches p (g y)) :
    (s.modify a f).Matches p (t.modify b g) := by
  constructor
  · simpa [Store.modify] using h.opened
  · intro c d others
    by_cases same : c = a
    · have same' : d = b := (others.eq_iff scopes).mp same
      subst same same'
      by_cases present : c.index < s.frames.size
      · rw [frame_modify_self s f present,
          frame_modify_self t g ((h.present_iff others).mp present)]
        exact step (h.frame others)
      · have absent : ¬d.index < t.frames.size := fun there =>
          present ((h.present_iff others).mpr there)
        simpa [Store.frame, Store.modify, Array.getD, present, absent] using h.frame others
    · have differs : d ≠ b := fun same' => same ((others.eq_iff scopes).mpr same')
      rw [frame_modify_of_ne s f same, frame_modify_of_ne t g differs]
      exact h.frame others

theorem push (h : s.Matches p t) {outer outer' : List Scope}
    (scopes : List.Forall₂ p.Scopes outer outer') :
    (s.push outer).2.Matches p (t.push outer').2 := by
  obtain ⟨k, size, size'⟩ := h.opened
  constructor
  · exact ⟨k + 1, by simp [Store.push, size, Nat.add_assoc],
      by simp [Store.push, size', Nat.add_assoc]⟩
  · intro c d others
    rcases Nat.lt_trichotomy c.index s.frames.size with old | new | later
    · rw [frame_push_of_lt s outer old,
        frame_push_of_lt t outer' ((h.present_iff others).mp old)]
      exact h.frame others
    · have isNew : c = ⟨s.frames.size⟩ := by
        cases c
        simp_all
      have isNew' : d = ⟨t.frames.size⟩ := (others.eq_iff h.next).mp isNew
      subst isNew isNew'
      have first := frame_push_self s outer
      have second := frame_push_self t outer'
      simp only [Store.push] at first second ⊢
      rw [first, second]
      exact .empty scopes
    · -- neither store has come to these scopes yet
      have absent : ¬d.index < t.frames.size := fun there =>
        absurd ((h.present_iff others).mpr there) (by omega)
      have differs : d.index ≠ t.frames.size := by
        intro same
        have isNew' : d = ⟨t.frames.size⟩ := by
          cases d
          simp_all
        have isNew : c = ⟨s.frames.size⟩ := (others.eq_iff h.next).mpr isNew'
        simp [isNew] at later
      have beyond : (s.push outer).2.frames.size ≤ c.index := by
        simp only [Store.push, Array.size_push]
        omega
      have beyond' : (t.push outer').2.frames.size ≤ d.index := by
        simp only [Store.push, Array.size_push]
        omega
      rw [frame_of_size_le _ beyond, frame_of_size_le _ beyond']
      exact .empty .nil

theorem get (h : s.Matches p t) (scopes : p.Scopes a b) (name : String) :
    ResultsMatch p (Value.Matches p) (s.get a name) (t.get b name) := by
  have found : FoundMatch p ((s.chain a).findSome? fun c => (s.frame c).get? name)
      ((t.chain b).findSome? fun d => (t.frame d).get? name) := by
    have chains := h.chain scopes
    generalize s.chain a = cs at chains
    generalize t.chain b = ds at chains
    induction chains with
    | nil => exact .none
    | @cons c d cs ds here rest ih =>
        have inner := (h.frame here).get? name
        simp only [List.findSome?_cons]
        generalize (s.frame c).get? name = x at inner
        generalize (t.frame d).get? name = y at inner
        cases inner with
        | none => exact ih
        | some values => exact .some values
  simp only [Store.get]
  generalize ((s.chain a).findSome? fun c => (s.frame c).get? name) = x at found
  generalize ((t.chain b).findSome? fun d => (t.frame d).get? name) = y at found
  cases found with
  | none => exact .error _
  | some values => exact .ok values

theorem bind (h : s.Matches p t) (scopes : p.Scopes a b) (name : String) {v w : Value}
    (values : v.Matches p w) : (s.bind a name v).Matches p (t.bind b name w) :=
  h.modify scopes fun frames => frames.bind name values

theorem define (h : s.Matches p t) (scopes : p.Scopes a b) (name : String) {v w : Value}
    (values : v.Matches p w) :
    ResultsMatch p (Store.Matches p) (s.define a name v) (t.define b name w) := by
  simp only [Store.define, (h.frame scopes).binds_eq name]
  split
  · exact .error _
  · exact .ok (h.bind scopes name values)

theorem holder? (h : s.Matches p t) (scopes : p.Scopes a b) (name : String) :
    (s.holder? a name = none ∧ t.holder? b name = none) ∨
      ∃ c d, s.holder? a name = some c ∧ t.holder? b name = some d ∧ p.Scopes c d := by
  have chains := h.chain scopes
  simp only [Store.holder?]
  generalize s.chain a = cs at chains
  generalize t.chain b = ds at chains
  induction chains with
  | nil => exact .inl ⟨rfl, rfl⟩
  | @cons c d cs ds here rest ih =>
      simp only [List.find?_cons, (h.frame here).binds_eq name]
      cases (t.frame d).binds name with
      | true => exact .inr ⟨c, d, rfl, rfl, here⟩
      | false => exact ih

theorem assign (h : s.Matches p t) (scopes : p.Scopes a b) (name : String) {v w : Value}
    (values : v.Matches p w) :
    ResultsMatch p (Store.Matches p) (s.assign a name v) (t.assign b name w) := by
  simp only [Store.assign]
  rcases h.holder? scopes name with ⟨none, none'⟩ | ⟨c, d, held, held', holders⟩
  · rw [none, none']
    exact .error _
  · simp only [held, held', (h.frame holders).isSealed]
    split
    · exact .error _
    · exact .ok (h.bind holders name values)

end Store.Matches

/-! ## Runs that go on after others -/

/-- The same scopes and closures, for runs that start after other lines. -/
def Pairing.since (p : Pairing) (before before' : Array String) : Pairing :=
  { p with before := before, before' := before' }

section Since

variable {p : Pairing} (before before' : Array String)

theorem Pairing.Scopes.since {s t : Scope} (h : p.Scopes s t) :
    (p.since before before').Scopes s t := by
  cases h with
  | given member => exact .given member
  | opened k => exact .opened (p := p.since before before') k

theorem Pairing.Closures.since {m n : Nat} (h : p.Closures m n) :
    (p.since before before').Closures m n := by
  cases h with
  | made k => exact .made (p := p.since before before') k

theorem Function.Matches.since {f g : Function} (h : f.Matches p g) :
    f.Matches (p.since before before') g := by
  cases h with
  | builtin f arity => exact .builtin f arity
  | closure name arity parameters body numbers scopes =>
      exact .closure (p := p.since before before') name arity parameters body
        (numbers.since before before') (scopes.since before before')

mutual

theorem Value.Matches.since :
    (v : Value) → {w : Value} → v.Matches p w → v.Matches (p.since before before') w
  | _, _, .null => .null
  | _, _, .boolean value => .boolean value
  | _, _, .number value => .number value
  | _, _, .text content => .text content
  | .array xs, _, .array elements => .array (Value.Matches.allSince xs elements)
  | _, _, .function functions => .function (functions.since before before')
  | _, _, .void => .void

theorem Value.Matches.allSince :
    (vs : List Value) → {ws : List Value} → List.Forall₂ (Value.Matches p) vs ws →
      List.Forall₂ (Value.Matches (p.since before before')) vs ws
  | _, _, .nil => .nil
  | v :: vs, _, .cons first rest =>
      .cons (Value.Matches.since v first) (Value.Matches.allSince vs rest)

end

theorem Frame.Matches.since {f g : Frame} (h : f.Matches p g) :
    f.Matches (p.since before before') g where
  outer := h.outer.imp fun _ _ scopes => scopes.since before before'
  isSealed := h.isSealed
  bindings := h.bindings.imp fun _ _ binding =>
    ⟨binding.1, Value.Matches.since before before' _ binding.2⟩

theorem Store.Matches.since {s t : Store} (h : s.Matches p t) :
    s.Matches (p.since before before') t where
  opened := h.opened
  frame scopes := by
    -- the lines can be exchanged back
    have scopes' := scopes.since p.before p.before'
    exact (h.frame scopes').since before before'

end Since

end Ardoise
