import Ardoise.Machine.Evaluation

/-!
# What values and stores hold

The operators and the library make numbers, texts and booleans, so that nothing
is held in their results.  An element of an array was held before.  A property of
values that all bindings of a store have is kept by its operations, as long as
what is bound has it too.
-/

namespace Ardoise

inductive Value.Plain : Value → Prop
  | null : Plain .null
  | boolean (value : Bool) : Plain (.boolean value)
  | number (value : Float) : Plain (.number value)
  | text (content : String) : Plain (.text content)
  | void : Plain .void

/-! ## Results of operations -/

namespace Value

theorem Plain.ofLiteral (literal : Literal) : (Value.ofLiteral literal).Plain := by
  cases literal <;> constructor

private theorem plain_of_add {a b value : Value} (h : a.add b = .ok value) : value.Plain := by
  unfold add at h
  split at h <;> cases h <;> constructor

theorem plain_of_onNumbers {operation : String} {f : Float → Float → Value} {a b value : Value}
    (results : ∀ x y, (f x y).Plain) (h : onNumbers operation f a b = .ok value) :
    value.Plain := by
  unfold onNumbers at h
  split at h <;> cases h
  exact results _ _

inductive Operation (op : Kind) : (Value → Value → Except RuntimeFault Value) → Prop
  | add : Operation op add
  | arithmetic (operation : String) (f : Float → Float → Float) :
      Operation op (onNumbers operation fun a b => .number (f a b))
  | comparison (operation : String) (f : Float → Float → Bool) :
      Operation op (onNumbers operation fun a b => .boolean (f a b))
  | equality (f : Bool → Bool) : Operation op fun a b => .ok (.boolean (f (a.same b)))
  | none : Operation op fun _ _ => .error (.notAnOperator op)

theorem operation_binary (op : Kind) : Operation op (binary op) := by
  unfold binary
  split
  · exact .add
  · exact .arithmetic _ _
  · exact .arithmetic _ _
  · exact .arithmetic _ _
  · exact .comparison _ _
  · exact .comparison _ _
  · exact .comparison _ _
  · exact .comparison _ _
  · exact .equality id
  · exact .equality not
  · exact .none

theorem plain_of_binary {op : Kind} {a b value : Value} (h : a.binary op b = .ok value) :
    value.Plain := by
  have operation := operation_binary op
  generalize binary op = f at operation h
  cases operation with
  | add => exact plain_of_add h
  | arithmetic => exact plain_of_onNumbers (fun _ _ => .number _) h
  | comparison => exact plain_of_onNumbers (fun _ _ => .boolean _) h
  | equality =>
      cases h
      exact .boolean _
  | none => cases h

theorem unary_of_ne {op : Kind} (other : op ≠ .symbol .minus) (a : Value) :
    a.unary op = a.unary (.symbol .bang) := by
  cases op with
  | symbol sign =>
      cases sign with
      | minus => exact absurd rfl other
      | _ => cases a <;> rfl
  | _ => cases a <;> rfl

theorem plain_of_unary {op : Kind} {a value : Value} (h : a.unary op = .ok value) :
    value.Plain := by
  unfold unary at h
  split at h <;> cases h <;> constructor

end Value

theorem Builtin.plain_of_apply {f : Builtin} {arguments : List Value} {value : Value}
    (h : f.apply arguments = .gives value) : value.Plain := by
  unfold Builtin.apply at h
  split at h <;> cases h <;> constructor

theorem mem_of_elementAt {elements : List Value} {index : Float} {value : Value}
    (h : elementAt elements index = .ok value) : value ∈ elements := by
  unfold elementAt at h
  simp only at h
  split at h
  · cases h
  split at h
  · cases h
  split at h
  · rename_i found
    cases h
    exact List.mem_of_getElem? found
  · cases h

/-! ## Stores -/

def Store.Each (V : Value → Prop) (store : Store) : Prop :=
  ∀ scope name value, (store.frame scope).get? name = some value → V value

namespace Store.Each

variable {V W : Value → Prop} {s t : Store} {scope : Scope} {name : String} {value : Value}

theorem mono (h : s.Each V) (weaker : ∀ v, V v → W v) : s.Each W :=
  fun scope name value found => weaker value (h scope name value found)

theorem empty : Store.empty.Each V := by
  intro scope name value found
  simp [Store.empty, Store.frame, Frame.empty, Frame.get?] at found

theorem modify (h : s.Each V) {f : Frame → Frame}
    (after : ∀ x v, (f (s.frame scope)).get? x = some v → V v) : (s.modify scope f).Each V := by
  intro other x v found
  by_cases same : other = scope
  · subst same
    by_cases present : other.index < s.frames.size
    · rw [frame_modify_self s f present] at found
      exact after x v found
    · have absent : (s.modify other f).frame other = s.frame other := by
        simp [Store.frame, Store.modify, Array.getD, present]
      rw [absent] at found
      exact h other x v found
  · rw [frame_modify_of_ne s f same] at found
    exact h other x v found

theorem bind (h : s.Each V) (bound : V value) : (s.bind scope name value).Each V := by
  refine h.modify fun x v found => ?_
  by_cases same : x = name
  · subst same
    rw [Frame.get?_bind_self] at found
    cases found
    exact bound
  · rw [Frame.get?_bind_of_ne _ _ same] at found
    exact h scope x v found

theorem sealScope (h : s.Each V) (scope : Scope) : (s.sealScope scope).Each V :=
  h.modify (h scope)

theorem clear (h : s.Each V) (scope : Scope) : (s.clear scope).Each V :=
  h.modify fun x v found => by simp at found

theorem push (h : s.Each V) (outer : List Scope) : (s.push outer).2.Each V := by
  intro other x v found
  by_cases present : other.index < s.frames.size
  · rw [frame_push_of_lt s outer present] at found
    exact h other x v found
  · have none : ((s.push outer).2.frame other).get? x = none := by
      by_cases last : other.index = s.frames.size
      · have same : other = (s.push outer).1 := by
          cases other
          cases last
          rfl
        rw [same, frame_push_self]
        rfl
      · have beyond : ¬ other.index < s.frames.size + 1 := by omega
        simp [Store.frame, Store.push, Array.getD, beyond, Frame.empty, Frame.get?]
    rw [none] at found
    cases found

theorem get (h : s.Each V) (found : s.get scope name = .ok value) : V value := by
  unfold Store.get at found
  split at found
  · rename_i held
    cases found
    obtain ⟨holder, _, here⟩ := List.exists_of_findSome?_eq_some held
    exact h holder name value here
  · cases found

theorem assign (h : s.Each V) (bound : V value)
    (assigned : s.assign scope name value = .ok t) : t.Each V := by
  unfold Store.assign at assigned
  split at assigned
  · cases assigned
  split at assigned
  · cases assigned
  · cases assigned
    exact h.bind bound

theorem define (h : s.Each V) (bound : V value)
    (defined : s.define scope name value = .ok t) : t.Each V := by
  unfold Store.define at defined
  split at defined
  · cases defined
  · cases defined
    exact h.bind bound

end Store.Each

end Ardoise
