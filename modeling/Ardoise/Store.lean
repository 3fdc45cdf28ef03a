import Ardoise.Value

/-!
# Scopes

The store holds the scopes that a program has opened so far, each with its own
bindings.  A scope may stand inside others, which it knows from the innermost
outwards and for good: a name that it does not bind itself is looked for there.
The bindings of a sealed scope can be read and not assigned.
-/

namespace Ardoise

structure Frame where
  /-- The scopes around this one, innermost first. -/
  outer : List Scope
  isSealed : Bool
  bindings : List (String × Value)

namespace Frame

def empty (outer : List Scope) : Frame := ⟨outer, false, []⟩

def get? (frame : Frame) (name : String) : Option Value :=
  frame.bindings.lookup name

def binds (frame : Frame) (name : String) : Bool :=
  frame.bindings.any (·.1 == name)

def bindIn (name : String) (value : Value) : List (String × Value) → List (String × Value)
  | [] => [(name, value)]
  | binding :: rest =>
    if binding.1 = name then (name, value) :: rest else binding :: bindIn name value rest

def bind (frame : Frame) (name : String) (value : Value) : Frame :=
  { frame with bindings := bindIn name value frame.bindings }

def clear (frame : Frame) : Frame :=
  { frame with bindings := [] }

theorem lookup_bindIn_self (name : String) (value : Value) (bindings : List (String × Value)) :
    (bindIn name value bindings).lookup name = some value := by
  induction bindings with
  | nil => simp [bindIn]
  | cons binding rest ih =>
    obtain ⟨other, old⟩ := binding
    by_cases same : other = name
    · simp [bindIn, same]
    · have differs : (name == other) = false := by simpa using Ne.symm same
      simp [bindIn, same, List.lookup_cons, differs, ih]

private theorem lookup_bindIn_of_ne {name other : String} (value : Value) (ne : other ≠ name)
    (bindings : List (String × Value)) :
    (bindIn name value bindings).lookup other = bindings.lookup other := by
  induction bindings with
  | nil => simp [bindIn, ne]
  | cons binding rest ih =>
    obtain ⟨here, old⟩ := binding
    by_cases same : here = name
    · subst same
      have differs : (other == here) = false := by simpa using ne
      simp [bindIn, List.lookup_cons, differs]
    · simp [bindIn, same, List.lookup_cons, ih]

@[simp] theorem get?_bind_self (frame : Frame) (name : String) (value : Value) :
    (frame.bind name value).get? name = some value :=
  lookup_bindIn_self name value frame.bindings

@[simp] theorem get?_bind_of_ne (frame : Frame) {name other : String} (value : Value)
    (ne : other ≠ name) : (frame.bind name value).get? other = frame.get? other :=
  lookup_bindIn_of_ne value ne frame.bindings

@[simp] theorem get?_clear (frame : Frame) (name : String) : frame.clear.get? name = none := rfl

theorem binds_eq_isSome_get? (frame : Frame) (name : String) :
    frame.binds name = (frame.get? name).isSome := by
  unfold binds get?
  induction frame.bindings with
  | nil => rfl
  | cons binding rest ih =>
    obtain ⟨other, value⟩ := binding
    by_cases same : other = name
    · subst same
      simp
    · have differs : (name == other) = false := by simpa using Ne.symm same
      simp [List.lookup_cons, same, differs, ih]

end Frame

structure Store where
  frames : Array Frame

namespace Store

def empty : Store := ⟨#[]⟩

def frame (store : Store) (scope : Scope) : Frame :=
  store.frames.getD scope.index (.empty [])

/-- The scopes in which a name is looked for, innermost first. -/
def chain (store : Store) (scope : Scope) : List Scope :=
  scope :: (store.frame scope).outer

@[inline]
def modify (store : Store) (scope : Scope) (f : Frame → Frame) : Store :=
  ⟨store.frames.modify scope.index f⟩

@[inline]
def push (store : Store) (outer : List Scope) : Scope × Store :=
  (⟨store.frames.size⟩, ⟨store.frames.push (.empty outer)⟩)

def newRoot (store : Store) : Scope × Store :=
  store.push []

def newChild (store : Store) (scope : Scope) : Scope × Store :=
  store.push (store.chain scope)

def holder? (store : Store) (scope : Scope) (name : String) : Option Scope :=
  (store.chain scope).find? fun s => (store.frame s).binds name

def get (store : Store) (scope : Scope) (name : String) : Except RuntimeFault Value :=
  match (store.chain scope).findSome? fun s => (store.frame s).get? name with
  | some value => .ok value
  | none => .error (.undefinedVariable name)

def bind (store : Store) (scope : Scope) (name : String) (value : Value) : Store :=
  store.modify scope fun frame => frame.bind name value

/-- Declares a name in a scope, once only; a binding further out does not matter. -/
@[inline]
def define (store : Store) (scope : Scope) (name : String) (value : Value) :
    Except RuntimeFault Store :=
  if (store.frame scope).binds name then .error (.redeclaration name)
  else .ok (store.bind scope name value)

@[inline]
def assign (store : Store) (scope : Scope) (name : String) (value : Value) :
    Except RuntimeFault Store :=
  match store.holder? scope name with
  | none => .error (.undefinedVariable name)
  | some holder =>
    if (store.frame holder).isSealed then .error (.readOnly name)
    else .ok (store.bind holder name value)

def sealScope (store : Store) (scope : Scope) : Store :=
  store.modify scope fun frame => { frame with isSealed := true }

def clear (store : Store) (scope : Scope) : Store :=
  store.modify scope Frame.clear

def clearAll (store : Store) (scopes : List Scope) : Store :=
  scopes.foldl clear store

/-! ## The frames after an operation -/

theorem frame_modify_self (store : Store) {scope : Scope} (f : Frame → Frame)
    (present : scope.index < store.frames.size) :
    (store.modify scope f).frame scope = f (store.frame scope) := by
  simp [frame, modify, Array.getD, present, Array.getElem_modify]

theorem frame_modify_of_ne (store : Store) {scope other : Scope} (f : Frame → Frame)
    (ne : other ≠ scope) : (store.modify scope f).frame other = store.frame other := by
  have differs : scope.index ≠ other.index := by
    intro same
    cases scope
    cases other
    simp_all
  simp [frame, modify, Array.getD, Array.getElem_modify, differs]

theorem chain_modify (store : Store) (scope other : Scope) {f : Frame → Frame}
    (fixed : ∀ frame, (f frame).outer = frame.outer) :
    (store.modify scope f).chain other = store.chain other := by
  have outer : ((store.modify scope f).frame other).outer = (store.frame other).outer := by
    by_cases same : other = scope
    · subst same
      by_cases present : other.index < store.frames.size
      · rw [frame_modify_self store f present, fixed]
      · simp [frame, modify, Array.getD, present]
    · rw [frame_modify_of_ne store f same]
  rw [chain, chain, outer]

theorem frame_push_of_lt (store : Store) (outer : List Scope) {scope : Scope}
    (present : scope.index < store.frames.size) :
    (store.push outer).2.frame scope = store.frame scope := by
  simp [frame, push, Array.getD, present, Nat.lt_succ_of_lt present, Array.getElem_push]

theorem frame_push_self (store : Store) (outer : List Scope) :
    (store.push outer).2.frame (store.push outer).1 = .empty outer := by
  simp [frame, push, Array.getD]

theorem define_newChild (store : Store) (outer : Scope) (name : String) (value : Value) :
    (store.newChild outer).2.define (store.newChild outer).1 name value =
      .ok ((store.newChild outer).2.bind (store.newChild outer).1 name value) := by
  have fresh : ((store.newChild outer).2.frame (store.newChild outer).1).binds name = false := by
    rw [newChild, frame_push_self]
    rfl
  simp only [define, fresh, Bool.false_eq_true, if_false]

end Store

end Ardoise
