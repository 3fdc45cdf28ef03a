import Ardoise.Proofs.Values.Identity
import Mathlib

/-!
# Equality

Values are compared by what they are made of: numbers as numbers, arrays element by
element, functions by their identity.  So the laws of equality are inductions over
the values compared.  They rest on three facts about numbers: equality of numbers is
symmetric and transitive, only what is not a number differs from itself, and apart
from the two zeros no different numbers are equal.
-/

namespace Ardoise

/-! ## Numbers -/

namespace Number

/-- The two zeros print alike. -/
theorem printed_of_beq {a b : Float} (equal : (a == b) = true) :
    Format.printed.text a = Format.printed.text b := by
  obtain ⟨_, _, rfl | ⟨rfl, rfl⟩ | ⟨rfl, rfl⟩⟩ := Float.beq_iff_ne_nan_and_eq.mp equal
  · rfl
  · decide +kernel
  · decide +kernel

theorem beq_self_iff (x : Float) : (x == x) = true ↔ ¬ x.isNaN = true := by
  rw [Float.beq_self_iff, Float.isNaN_eq_decide_eq_nan]
  simp

end Number

namespace Value

inductive HasNaN : Value → Prop
  | number {x : Float} (none : x.isNaN = true) : HasNaN (.number x)
  | array {elements : List Value} {value : Value} (member : value ∈ elements)
      (within : value.HasNaN) : HasNaN (.array elements)

private theorem hasNaN_array_iff {elements : List Value} :
    (Value.array elements).HasNaN ↔ ∃ value ∈ elements, value.HasNaN := by
  constructor
  · rintro (_ | ⟨member, within⟩)
    exact ⟨_, member, within⟩
  · rintro ⟨value, member, within⟩
    exact .array member within

end Value

private theorem Function.same_comm (f g : Function) : f.same g = g.same f := by
  cases f <;> cases g <;> simp [Function.same, eq_comm]

theorem Function.same_self (f : Function) : f.same f = true := by
  cases f <;> simp [Function.same]

private theorem Function.same_trans {f g h : Function} (first : f.same g = true)
    (second : g.same h = true) : f.same h = true := by
  cases f <;> cases g <;> cases h <;> simp_all [Function.same]

/-! ## Values that are equal

What equality comes to, without the pairs that it tells apart. -/

mutual

inductive Value.Equal : Value → Value → Prop
  | null : Equal .null .null
  | void : Equal .void .void
  | boolean (value : Bool) : Equal (.boolean value) (.boolean value)
  | text (content : String) : Equal (.text content) (.text content)
  | number {x y : Float} (equal : (x == y) = true) : Equal (.number x) (.number y)
  | function {f g : Function} (same : f.same g = true) : Equal (.function f) (.function g)
  | array {as bs : List Value} (each : Value.EqualAll as bs) : Equal (.array as) (.array bs)

inductive Value.EqualAll : List Value → List Value → Prop
  | nil : EqualAll [] []
  | cons {a b : Value} {as bs : List Value} (first : Value.Equal a b) (others : EqualAll as bs) :
      EqualAll (a :: as) (b :: bs)

end

namespace Value

mutual

theorem equal_of_same : (a b : Value) → a.same b = true → Equal a b := by
  intro a b h
  unfold same at h
  split at h
  · exact .null
  · exact .void
  · rw [eq_of_beq h]
    exact .boolean _
  · exact .number h
  · rw [eq_of_beq h]
    exact .text _
  · rename_i as bs
    exact .array (equalAll_of_sameElements as bs h)
  · exact .function h
  · cases h

theorem equalAll_of_sameElements : (as bs : List Value) → sameElements as bs = true →
    EqualAll as bs
  | [], [], _ => .nil
  | [], _ :: _, h => by cases h
  | _ :: _, [], h => by cases h
  | a :: as, b :: bs, h => by
      rw [sameElements, Bool.and_eq_true] at h
      exact .cons (equal_of_same a b h.1) (equalAll_of_sameElements as bs h.2)

end

mutual

theorem Equal.same {a b : Value} : Equal a b → a.same b = true
  | .null | .void => rfl
  | .boolean value => by simp [Value.same]
  | .text content => by simp [Value.same]
  | .number equal => equal
  | .function same => same
  | .array each => each.sameElements

theorem EqualAll.sameElements {as bs : List Value} :
    EqualAll as bs → Value.sameElements as bs = true
  | .nil => rfl
  | .cons first others => by
      rw [Value.sameElements, first.same, others.sameElements]
      rfl

end

theorem same_iff_equal {a b : Value} : a.same b = true ↔ Equal a b :=
  ⟨equal_of_same a b, Equal.same⟩

private theorem equalAll_iff {as bs : List Value} : EqualAll as bs ↔ List.Forall₂ Equal as bs := by
  induction as generalizing bs with
  | nil =>
      constructor
      · rintro ⟨⟩
        exact .nil
      · rintro ⟨⟩
        exact .nil
  | cons a as ih =>
      constructor
      · rintro (_ | ⟨first, others⟩)
        exact .cons first (ih.mp others)
      · rintro (_ | ⟨first, others⟩)
        exact .cons first (ih.mpr others)

mutual

theorem Equal.symm {a b : Value} : Equal a b → Equal b a
  | .null => .null
  | .void => .void
  | .boolean value => .boolean value
  | .text content => .text content
  | .number equal => .number (BEq.symm equal)
  | .function same => .function (by rw [Function.same_comm, same])
  | .array each => .array each.symm

theorem EqualAll.symm {as bs : List Value} : EqualAll as bs → EqualAll bs as
  | .nil => .nil
  | .cons first others => .cons first.symm others.symm

end

mutual

theorem Equal.trans {a b c : Value} : Equal a b → Equal b c → Equal a c
  | .null, .null => .null
  | .void, .void => .void
  | .boolean value, .boolean _ => .boolean value
  | .text content, .text _ => .text content
  | .number first, .number second => .number (BEq.trans first second)
  | .function first, .function second => .function (Function.same_trans first second)
  | .array first, .array second => .array (first.trans second)

theorem EqualAll.trans {as bs cs : List Value} : EqualAll as bs → EqualAll bs cs → EqualAll as cs
  | .nil, .nil => .nil
  | .cons first others, .cons first' others' => .cons (first.trans first') (others.trans others')

end

mutual

theorem equal_self_iff : (value : Value) → Equal value value ↔ ¬ value.HasNaN
  | .null => iff_of_true .null (by rintro ⟨⟩)
  | .void => iff_of_true .void (by rintro ⟨⟩)
  | .boolean value => iff_of_true (.boolean value) (by rintro ⟨⟩)
  | .text content => iff_of_true (.text content) (by rintro ⟨⟩)
  | .function f => iff_of_true (.function f.same_self) (by rintro ⟨⟩)
  | .number x => by
      constructor
      · rintro (_ | _ | _ | _ | equal) (none | _)
        exact (Number.beq_self_iff x).mp equal none
      · intro good
        exact .number ((Number.beq_self_iff x).mpr fun none => good (.number none))
  | .array elements => by
      rw [hasNaN_array_iff]
      constructor
      · rintro (_ | _ | _ | _ | _ | _ | each) ⟨value, member, within⟩
        exact (equalAll_self_iff elements).mp each value member within
      · intro good
        refine .array ((equalAll_self_iff elements).mpr fun value member within => ?_)
        exact good ⟨value, member, within⟩

theorem equalAll_self_iff : (values : List Value) →
    (EqualAll values values ↔ ∀ value ∈ values, ¬ value.HasNaN)
  | [] => ⟨fun _ _ member => absurd member List.not_mem_nil, fun _ => .nil⟩
  | value :: rest => by
      rw [List.forall_mem_cons, ← equal_self_iff value, ← equalAll_self_iff rest]
      constructor
      · rintro (_ | ⟨first, others⟩)
        exact ⟨first, others⟩
      · exact fun ⟨first, others⟩ => .cons first others

end

theorem Equal.kind {a b : Value} (h : Equal a b) : a.kind = b.kind := by
  cases h <;> rfl

mutual

/-- Equal values print alike, where a closure is known by its number. -/
theorem Equal.display {made : List Closure} {a b : Value} (ha : a.Holds (Function.Listed made))
    (hb : b.Holds (Function.Listed made)) : Equal a b → a.display = b.display
  | .null | .void | .boolean _ | .text _ => rfl
  | .number equal => Number.printed_of_beq equal
  | .function same => by
      cases ha with
      | plain plain => cases plain
      | function listed =>
          cases hb with
          | plain plain => cases plain
          | function listed' => rw [listed.eq_of_same listed' same]
  | .array each => by
      cases ha with
      | plain plain => cases plain
      | array held =>
          cases hb with
          | plain plain => cases plain
          | array held' =>
              simp only [Value.display]
              rw [each.displays held held']

theorem EqualAll.displays {made : List Closure} {as bs : List Value}
    (ha : ∀ a ∈ as, a.Holds (Function.Listed made))
    (hb : ∀ b ∈ bs, b.Holds (Function.Listed made)) :
    EqualAll as bs → Value.displays as = Value.displays bs
  | .nil => rfl
  | .cons first others => by
      rw [List.forall_mem_cons] at ha hb
      rw [Value.displays, Value.displays, first.display ha.1 hb.1, others.displays ha.2 hb.2]

end

end Value

/-! ## Values that a run comes to -/

theorem World.Hosts.display_eq_of_equal {world : World} {session : Session} {source : String}
    {fuel : Nat} {left right : Expr} {m n k : Machine} {v w : Value}
    (hosts : world.Hosts session) (passes : world.Passes session source m)
    (first : evaluate (invoke session.limits.callDepth fuel) left m = .done v n)
    (second : evaluate (invoke session.limits.callDepth fuel) right n = .done w k)
    (equal : Value.Equal v w) : v.display = w.display := by
  have kept := register_kept session.limits.callDepth
  obtain ⟨made, registers⟩ := World.registers_lasting.of_hosts hosts
  obtain ⟨_, _, path⟩ := passes
  obtain ⟨made', _, fits, _⟩ := kept.along path trivial registers trivial
  obtain ⟨more, _, reached, hasLeft⟩ :=
    (kept.evaluate (kept.invoke fuel) left trivial fits).of_done first
  obtain ⟨all, longer, _, hasRight⟩ :=
    (kept.evaluate (kept.invoke fuel) right trivial reached).of_done second
  exact equal.display (kept.has_mono longer hasLeft) hasRight

/--
Equality is symmetric and transitive, and a value equals itself unless something that is
not a number stands in it.  The two operators give equality and its negation.  Arrays are
equal if they are so element by element.  Equal values are of one kind, and the values of
two expressions that a session evaluates at any moment, one after the other, print alike
if they are equal.
-/
theorem Value.same_lawful :
    (∀ v w : Value, v.same w = w.same v) ∧
    (∀ u v w : Value, u.same v = true → v.same w = true → u.same w = true) ∧
    (∀ v : Value, v.same v = true ↔ ¬ v.HasNaN) ∧
    (∀ v w : Value, v.binary (.symbol .equalEqual) w = .ok (.boolean (v.same w)) ∧
      v.binary (.symbol .bangEqual) w = .ok (.boolean (!v.same w))) ∧
    (∀ vs ws : List Value, (Value.array vs).same (.array ws) = true ↔
      List.Forall₂ (fun v w => v.same w = true) vs ws) ∧
    (∀ v w : Value, v.same w = true → v.kind = w.kind) ∧
    ∀ (world : World) (session : Session) (source : String) (fuel : Nat) (left right : Expr)
      (m n k : Machine) (v w : Value), world.Hosts session → world.Passes session source m →
      evaluate (invoke session.limits.callDepth fuel) left m = .done v n →
      evaluate (invoke session.limits.callDepth fuel) right n = .done w k →
      v.same w = true → v.display = w.display := by
  refine ⟨fun v w => ?_, fun u v w => ?_, fun v => ?_, fun v w => ⟨rfl, rfl⟩, fun vs ws => ?_,
    fun v w equal => (equal_of_same v w equal).kind, ?_⟩
  · rw [Bool.eq_iff_iff, same_iff_equal, same_iff_equal]
    exact ⟨Equal.symm, Equal.symm⟩
  · rw [same_iff_equal, same_iff_equal, same_iff_equal]
    exact Equal.trans
  · rw [same_iff_equal, equal_self_iff]
  · simp only [same_iff_equal]
    rw [← equalAll_iff]
    refine ⟨fun equal => ?_, .array⟩
    cases equal with
    | array each => exact each
  · intro world session source fuel left right m n k v w hosts passes first second equal
    exact hosts.display_eq_of_equal passes first second (equal_of_same v w equal)

/-- Arrays that hold the two zeros and one function are equal, both ways, and print alike. -/
theorem Value.same_lawful_of_zeros :
    let source := "fonction f() fin f"
    let desk := Desk.empty.openSession {}
    ∃ session m f, desk.world.Hosts session ∧ desk.world.Passes session source m ∧
      let v : Value := .array [.array [.number 0], .function (.closure f)]
      let w : Value := .array [.array [.number (-0)], .function (.closure f)]
      v.same w = true ∧ w.same v = true ∧ v.kind = w.kind ∧ v.display = w.display := by
  intro source desk
  have opened : Desk.empty.step 0 (.newSession {}) = some (desk, none) := rfl
  have found : desk.session? 0 = some (World.initial.newSession {}).1 := rfl
  have hosts : desk.world.Hosts (World.initial.newSession {}).1 :=
    .found (Desk.Reachable.empty.step opened) found
  have scanned : (scan source).toOption = some
      [⟨.keyword .fonction, "fonction", ⟨0, 8, 1⟩⟩, ⟨.identifier "f", "f", ⟨9, 10, 1⟩⟩,
        ⟨.symbol .leftParen, "(", ⟨10, 11, 1⟩⟩, ⟨.symbol .rightParen, ")", ⟨11, 12, 1⟩⟩,
        ⟨.keyword .fin, "fin", ⟨13, 16, 1⟩⟩, ⟨.identifier "f", "f", ⟨17, 18, 1⟩⟩,
        .endAt ⟨18, 18, 1⟩] := by
    decide +kernel
  let name : Name := ⟨"f", ⟨9, 10, 1⟩⟩
  let span : Span := ⟨0, 0, 1⟩
  let holding (zero : Expr) : Expr := .array span [.array span [zero], .lookup span name]
  have reached : ∃ m n k f, desk.world.Passes (World.initial.newSession {}).1 source m ∧
      evaluate (invoke 128 9) (holding (.literal span (.number 0))) m =
        .done (.array [.array [.number 0], .function (.closure f)]) n ∧
      evaluate (invoke 128 9)
          (holding (.unary span (.symbol .minus) (.literal span (.number 0)))) n =
        .done (.array [.array [.number (-0)], .function (.closure f)]) k :=
    ⟨_, _, _, _, @World.Passes.reached _ _ _ _ _ _ #[] 9 _ _ (eq_ok_of_toOption scanned) rfl
      (.single (.otherStatements rfl)), rfl, rfl⟩
  obtain ⟨m, n, k, f, passes, first, second⟩ := reached
  have equal : Value.Equal (.array [.array [.number 0], .function (.closure f)])
      (.array [.array [.number (-0)], .function (.closure f)]) :=
    .array (.cons (.array (.cons (.number (by decide +kernel)) .nil))
      (.cons (.function (Function.same_self _)) .nil))
  obtain ⟨comm, _, _, _, _, kinds, prints⟩ := Value.same_lawful
  refine ⟨_, m, f, hosts, passes, equal.same, ?_, kinds _ _ equal.same, ?_⟩
  · rw [comm, equal.same]
  · exact prints _ _ source 9 _ _ m n k _ _ hosts passes first second equal.same

end Ardoise
