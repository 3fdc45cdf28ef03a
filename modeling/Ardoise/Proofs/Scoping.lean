import Ardoise.Ledger
import Ardoise.Proofs.Sessions.Hygiene

/-!
# Scopes as nested tables

However the steps of a ledger are mixed, its store stays a forest of tables: each
scope stands for good in the one it was made in, and a walk outwards ends.  What
can be read, assigned and declared is then said by the tables alone.  The nearest
scope on the walk that binds a name decides what is read, and is the one that an
assignment changes; a declaration looks at its own scope only.
-/

namespace Ardoise

namespace Store

def parent? (store : Store) (scope : Scope) : Option Scope :=
  (store.frame scope).outer.head?

inductive Nearest (store : Store) (name : String) : Scope → Scope → Prop
  | here {scope : Scope} (bound : (store.frame scope).binds name = true) :
      Nearest store name scope scope
  | outside {scope outer holder : Scope} (free : (store.frame scope).binds name = false)
      (parent : store.parent? scope = some outer) (nearest : Nearest store name outer holder) :
      Nearest store name scope holder

/-! ## The walk outwards -/

/-- What a scope knows of the scopes around it is the walk from its parent, made before it. -/
def Nested (store : Store) : Prop :=
  ∀ scope, (store.frame scope).outer = [] ∨
    ∃ outer, outer.index < scope.index ∧ (store.frame scope).outer = store.chain outer

theorem outer_modify (s : Store) (scope other : Scope) {f : Frame → Frame}
    (fixed : ∀ frame, (f frame).outer = frame.outer) :
    ((s.modify scope f).frame other).outer = (s.frame other).outer :=
  List.tail_eq_of_cons_eq (chain_modify s scope other fixed)

private theorem parent?_modify (s : Store) (scope other : Scope) {f : Frame → Frame}
    (fixed : ∀ frame, (f frame).outer = frame.outer) :
    (s.modify scope f).parent? other = s.parent? other :=
  congrArg List.head? (outer_modify s scope other fixed)

theorem frame_of_absent (s : Store) {scope : Scope} (absent : s.frames.size ≤ scope.index) :
    s.frame scope = .empty [] := by
  simp [frame, Array.getD, Nat.not_lt.mpr absent]

theorem present_of_binds {s : Store} {scope : Scope} {name : String}
    (bound : (s.frame scope).binds name = true) : scope.index < s.frames.size := by
  apply Nat.lt_of_not_le
  intro absent
  rw [frame_of_absent s absent] at bound
  cases bound

private theorem parent?_push_of_lt (s : Store) (outer : List Scope) {scope : Scope}
    (present : scope.index < s.frames.size) : (s.push outer).2.parent? scope = s.parent? scope := by
  rw [parent?, parent?, frame_push_of_lt s outer present]

theorem chain_push_of_lt (s : Store) (outer : List Scope) {scope : Scope}
    (present : scope.index < s.frames.size) : (s.push outer).2.chain scope = s.chain scope := by
  rw [chain, chain, frame_push_of_lt s outer present]

namespace Nested

variable {s : Store}

theorem empty : Store.empty.Nested :=
  fun scope => .inl (by simp [Store.empty, frame, Frame.empty])

theorem modify (nested : s.Nested) (scope : Scope) {f : Frame → Frame}
    (fixed : ∀ frame, (f frame).outer = frame.outer) : (s.modify scope f).Nested := by
  intro other
  rw [outer_modify s scope other fixed]
  rcases nested other with root | ⟨outer, lower, walk⟩
  · exact .inl root
  · exact .inr ⟨outer, lower, walk.trans (chain_modify s scope outer fixed).symm⟩

theorem push (nested : s.Nested) {outer : List Scope}
    (placed : outer = [] ∨ ∃ scope : Scope, scope.index < s.frames.size ∧ outer = s.chain scope) :
    (s.push outer).2.Nested := by
  intro other
  rcases Nat.lt_trichotomy other.index s.frames.size with old | new | absent
  · rw [frame_push_of_lt s outer old]
    rcases nested other with root | ⟨parent, lower, walk⟩
    · exact .inl root
    · refine .inr ⟨parent, lower, ?_⟩
      rw [walk, chain_push_of_lt s outer (Nat.lt_trans lower old)]
  · obtain rfl : other = (s.push outer).1 := by
      cases other
      cases new
      rfl
    rw [frame_push_self]
    rcases placed with root | ⟨parent, present, walk⟩
    · exact .inl root
    · refine .inr ⟨parent, present, ?_⟩
      rw [chain_push_of_lt s outer present]
      exact walk
  · have beyond : (s.push outer).2.frames.size ≤ other.index := by
      simp only [Store.push, Array.size_push]
      omega
    exact .inl (by rw [frame_of_absent _ beyond]; rfl)

theorem parent?_lt (nested : s.Nested) {scope outer : Scope}
    (parent : s.parent? scope = some outer) : outer.index < scope.index := by
  unfold parent? at parent
  rcases nested scope with root | ⟨other, lower, walk⟩
  · rw [root] at parent
    cases parent
  · rw [walk] at parent
    cases parent
    exact lower

theorem chain_of_root (nested : s.Nested) {scope : Scope} (root : s.parent? scope = none) :
    s.chain scope = [scope] := by
  unfold parent? at root
  rcases nested scope with outer | ⟨other, _, walk⟩
  · rw [chain, outer]
  · rw [walk] at root
    cases root

theorem chain_of_parent (nested : s.Nested) {scope outer : Scope}
    (parent : s.parent? scope = some outer) : s.chain scope = scope :: s.chain outer := by
  unfold parent? at parent
  rcases nested scope with root | ⟨other, _, walk⟩
  · rw [root] at parent
    cases parent
  · rw [walk] at parent
    cases parent
    rw [chain, walk]

theorem wellFounded (nested : s.Nested) :
    WellFounded fun outer inner => s.parent? inner = some outer :=
  Subrelation.wf (fun parent => nested.parent?_lt parent) (measure Scope.index).wf

private theorem holder?_of_nearest (nested : s.Nested) {name : String} {scope holder : Scope}
    (nearest : s.Nearest name scope holder) : s.holder? scope name = some holder := by
  induction nearest with
  | here bound => simp [holder?, chain, bound]
  | outside free parent _ ih =>
      rw [holder?, nested.chain_of_parent parent, List.find?_cons, free]
      exact ih

private theorem nearest_of_holder? (nested : s.Nested) {name : String} {scope holder : Scope}
    (held : s.holder? scope name = some holder) : s.Nearest name scope holder := by
  induction scope using nested.wellFounded.induction with
  | _ scope ih =>
      cases bound : (s.frame scope).binds name with
      | true =>
          simp only [holder?, chain, List.find?_cons, bound, Option.some.injEq] at held
          subst held
          exact .here bound
      | false =>
          cases parent : s.parent? scope with
          | none => simp [holder?, nested.chain_of_root parent, bound] at held
          | some outer =>
              rw [holder?, nested.chain_of_parent parent, List.find?_cons, bound] at held
              exact .outside bound parent (ih outer parent held)

theorem nearest_iff (nested : s.Nested) {name : String} {scope holder : Scope} :
    s.Nearest name scope holder ↔ s.holder? scope name = some holder :=
  ⟨nested.holder?_of_nearest, nested.nearest_of_holder?⟩

theorem no_nearest_iff (nested : s.Nested) {name : String} {scope : Scope} :
    (∀ holder, ¬ s.Nearest name scope holder) ↔ s.holder? scope name = none := by
  simp only [nested.nearest_iff, Option.eq_none_iff_forall_ne_some, ne_eq]

end Nested

/-! ## Reading -/

theorem get?_of_binds {frame : Frame} {name : String} (bound : frame.binds name = true) :
    ∃ value, frame.get? name = some value := by
  rw [Frame.binds_eq_isSome_get?] at bound
  exact Option.isSome_iff_exists.mp bound

theorem get?_of_not_binds {frame : Frame} {name : String} (free : frame.binds name = false) :
    frame.get? name = none := by
  rw [Frame.binds_eq_isSome_get?] at free
  exact Option.not_isSome_iff_eq_none.mp (by simp [free])

theorem findSome?_get? (s : Store) (name : String) (scopes : List Scope) :
    (scopes.findSome? fun a => (s.frame a).get? name) =
      (scopes.find? fun a => (s.frame a).binds name).bind fun a => (s.frame a).get? name := by
  induction scopes with
  | nil => rfl
  | cons scope rest ih =>
      cases bound : (s.frame scope).binds name with
      | true =>
          obtain ⟨value, found⟩ := get?_of_binds bound
          simp [bound, found]
      | false => simp [bound, get?_of_not_binds bound, ih]

theorem get_of_holder? {s : Store} {scope holder : Scope} {name : String} {value : Value}
    (held : s.holder? scope name = some holder) (found : (s.frame holder).get? name = some value) :
    s.get scope name = .ok value := by
  unfold holder? at held
  simp [Store.get, findSome?_get?, held, found]

theorem get_of_no_holder? {s : Store} {scope : Scope} {name : String}
    (free : s.holder? scope name = none) :
    s.get scope name = .error (.undefinedVariable name) := by
  unfold holder? at free
  simp only [Store.get, findSome?_get?, free, Option.bind_none]

theorem get_congr {s t : Store} {scope : Scope} {name : String}
    (held : t.holder? scope name = s.holder? scope name)
    (same : ∀ holder, s.holder? scope name = some holder →
      (t.frame holder).get? name = (s.frame holder).get? name) :
    t.get scope name = s.get scope name := by
  cases here : s.holder? scope name with
  | none => rw [get_of_no_holder? here, get_of_no_holder? (held.trans here)]
  | some holder =>
      obtain ⟨value, found⟩ := get?_of_binds (binds_of_holder? here)
      rw [get_of_holder? here found,
        get_of_holder? (held.trans here) ((same holder here).trans found)]

/-! ## Binding -/

theorem get?_bind (s : Store) {scope : Scope} (present : scope.index < s.frames.size)
    (name : String) (value : Value) :
    ((s.bind scope name value).frame scope).get? name = some value := by
  rw [Store.bind, frame_modify_self s _ present, Frame.get?_bind_self]

theorem get?_bind_of_ne (s : Store) {scope other : Scope} {name x : String} (value : Value)
    (differs : other ≠ scope ∨ x ≠ name) :
    ((s.bind scope name value).frame other).get? x = (s.frame other).get? x := by
  by_cases same : other = scope
  · subst same
    have apart : x ≠ name := differs.resolve_left (fun h => h rfl)
    by_cases present : other.index < s.frames.size
    · rw [Store.bind, frame_modify_self s _ present, Frame.get?_bind_of_ne _ _ apart]
    · simp [Store.bind, Store.modify, frame, Array.getD, present]
  · rw [Store.bind, frame_modify_of_ne s _ same]

theorem chain_bind (s : Store) (scope other : Scope) (name : String) (value : Value) :
    (s.bind scope name value).chain other = s.chain other :=
  chain_modify s scope other fun _ => rfl

theorem holder?_congr {s t : Store} {scope : Scope} {name : String}
    (walk : t.chain scope = s.chain scope)
    (same : ∀ a, (t.frame a).binds name = (s.frame a).binds name) :
    t.holder? scope name = s.holder? scope name := by
  simp only [holder?, walk, same]

/-- If one scope more binds a name, and is not its holder, it makes no difference. -/
theorem find?_of_ne_some {p q : Scope → Bool} {scope : Scope}
    (same : ∀ a, a ≠ scope → q a = p a) (free : p scope = false) {scopes : List Scope}
    (other : scopes.find? q ≠ some scope) : scopes.find? q = scopes.find? p := by
  induction scopes with
  | nil => rfl
  | cons a rest ih =>
      by_cases here : a = scope
      · subst here
        cases now : q a with
        | true => simp [now] at other
        | false =>
            simp only [List.find?_cons, now, free] at other ⊢
            exact ih other
      · simp only [List.find?_cons, same a here] at other ⊢
        cases old : p a with
        | true => rfl
        | false =>
            rw [old] at other
            exact ih other

/-! ## The laws of the tables -/

structure ReadsNearest (s : Store) (scope : Scope) (name : String) : Prop where
  found {holder : Scope} : s.Nearest name scope holder →
    ∃ value, (s.frame holder).get? name = some value ∧ s.get scope name = .ok value
  undefined : s.get scope name = .error (.undefinedVariable name) ↔
    ∀ holder, ¬ s.Nearest name scope holder

/-- A name is assigned where it is bound nearest, for all who see that binding and no others. -/
structure AssignsNearest (s : Store) (scope : Scope) (name : String) (value : Value) : Prop where
  undefined : s.assign scope name value = .error (.undefinedVariable name) ↔
    ∀ holder, ¬ s.Nearest name scope holder
  readOnly : s.assign scope name value = .error (.readOnly name) ↔
    ∃ holder, s.Nearest name scope holder ∧ (s.frame holder).isSealed = true
  otherwise {holder : Scope} : s.Nearest name scope holder →
    (s.frame holder).isSealed = false →
    ∃ t, s.assign scope name value = .ok t ∧ ∀ other x,
      (x = name ∧ s.Nearest name other holder → t.get other x = .ok value) ∧
      (¬ (x = name ∧ s.Nearest name other holder) → t.get other x = s.get other x)

/-- A name is declared in the scope itself, for all who then find it there first. -/
structure DeclaresHere (s : Store) (scope : Scope) (name : String) (value : Value) : Prop where
  redeclared : s.define scope name value = .error (.redeclaration name) ↔
    (s.frame scope).binds name = true
  otherwise : (s.frame scope).binds name = false →
    ∃ t, s.define scope name value = .ok t ∧ ∀ other x,
      (x = name ∧ t.Nearest name other scope → t.get other x = .ok value) ∧
      (¬ (x = name ∧ t.Nearest name other scope) → t.get other x = s.get other x)

namespace Nested

variable {s : Store}

private theorem readsNearest (nested : s.Nested) (scope : Scope) (name : String) :
    s.ReadsNearest scope name := by
  constructor
  · intro holder nearest
    have held := nested.nearest_iff.mp nearest
    obtain ⟨value, found⟩ := get?_of_binds (binds_of_holder? held)
    exact ⟨value, found, get_of_holder? held found⟩
  · rw [nested.no_nearest_iff]
    constructor
    · intro refused
      cases held : s.holder? scope name with
      | none => rfl
      | some holder =>
          obtain ⟨value, found⟩ := get?_of_binds (binds_of_holder? held)
          rw [get_of_holder? held found] at refused
          cases refused
    · exact get_of_no_holder?

/-- After an assignment, every name has the holder that it had. -/
theorem get_bind_of_holder? {holder scope : Scope} {name : String} (value : Value)
    (held : s.holder? scope name = some holder) (other : Scope) (x : String) :
    (x = name ∧ s.holder? other name = some holder →
        (s.bind holder name value).get other x = .ok value) ∧
      (¬ (x = name ∧ s.holder? other name = some holder) →
        (s.bind holder name value).get other x = s.get other x) := by
  have bound := binds_of_holder? held
  have present := present_of_binds bound
  have holders : (s.bind holder name value).holder? other x = s.holder? other x := by
    apply holder?_congr (chain_bind s holder other name value)
    intro a
    rw [Bool.eq_iff_iff, binds_bind_iff]
    constructor
    · rintro (old | ⟨rfl, _, rfl⟩)
      · exact old
      · exact bound
    · exact .inl
  constructor
  · rintro ⟨rfl, same⟩
    exact get_of_holder? (holders.trans same) (get?_bind s present x value)
  · intro differs
    apply get_congr holders
    intro a here
    apply get?_bind_of_ne
    by_cases same : x = name
    · subst same
      left
      rintro rfl
      exact differs ⟨rfl, here⟩
    · exact .inr same

private theorem assignsNearest (nested : s.Nested) (scope : Scope) (name : String) (value : Value) :
    s.AssignsNearest scope name value := by
  constructor
  · rw [nested.no_nearest_iff, Store.assign]
    cases held : s.holder? scope name with
    | none => simp
    | some holder =>
        cases closed : (s.frame holder).isSealed <;> simp [closed]
  · simp only [nested.nearest_iff, Store.assign]
    cases held : s.holder? scope name with
    | none => simp
    | some holder =>
        cases closed : (s.frame holder).isSealed <;> simp [closed]
  · intro holder nearest free
    have held := nested.nearest_iff.mp nearest
    simp only [nested.nearest_iff]
    refine ⟨s.bind holder name value, ?_, get_bind_of_holder? value held⟩
    simp [Store.assign, held, free]

theorem declaresHere (nested : s.Nested) {scope : Scope} (present : scope.index < s.frames.size)
    (name : String) (value : Value) : s.DeclaresHere scope name value := by
  constructor
  · unfold Store.define
    cases bound : (s.frame scope).binds name <;> simp
  · intro free
    refine ⟨s.bind scope name value, by simp [Store.define, free], ?_⟩
    intro other x
    have nested' : (s.bind scope name value).Nested := nested.modify scope fun _ => rfl
    rw [nested'.nearest_iff]
    constructor
    · rintro ⟨rfl, held⟩
      exact get_of_holder? held (get?_bind s present x value)
    · intro differs
      -- another name is bound where it was; this one only if it is found before `scope`
      by_cases same : x = name
      · subst same
        have apart : (s.bind scope x value).holder? other x ≠ some scope :=
          fun held => differs ⟨rfl, held⟩
        have holders : (s.bind scope x value).holder? other x = s.holder? other x := by
          unfold holder? at apart ⊢
          rw [chain_bind] at apart ⊢
          refine find?_of_ne_some (fun a ne => ?_) free apart
          rw [Bool.eq_iff_iff, binds_bind_iff]
          simp [ne]
        apply get_congr holders
        intro holder held
        apply get?_bind_of_ne
        left
        rintro rfl
        exact apart (holders.trans held)
      · apply get_congr
        · apply holder?_congr (chain_bind s scope other name value)
          intro a
          rw [Bool.eq_iff_iff, binds_bind_iff]
          simp [same]
        · intro holder _
          exact get?_bind_of_ne s value (.inr same)

end Nested

/-! ## Clearing -/

private theorem frame_clear (s : Store) (scope a : Scope) :
    (s.clear scope).frame a = if a = scope then (s.frame a).clear else s.frame a := by
  split
  · rename_i same
    subst same
    by_cases present : a.index < s.frames.size
    · exact frame_modify_self s _ present
    · have absent := frame_of_absent s (Nat.not_lt.mp present)
      rw [absent, frame_of_absent]
      · rfl
      · simpa [Store.clear, Store.modify] using present
  · rename_i differs
    exact frame_modify_of_ne s _ differs

theorem frame_clearAll (s : Store) (scopes : List Scope) (a : Scope) :
    (s.clearAll scopes).frame a = if a ∈ scopes then (s.frame a).clear else s.frame a := by
  induction scopes generalizing s with
  | nil => simp [Store.clearAll]
  | cons scope rest ih =>
      change ((s.clear scope).clearAll rest).frame a = _
      rw [ih, frame_clear]
      by_cases same : a = scope
      · simp [same, Frame.clear]
      · simp [same]

/-! ## What becomes of a store -/

inductive Evolves : Store → Store → Prop
  | refl (s : Store) : Evolves s s
  | modify {s t : Store} (before : Evolves s t) (scope : Scope) {f : Frame → Frame}
      (fixed : ∀ frame, (f frame).outer = frame.outer) : Evolves s (t.modify scope f)
  | newRoot {s t : Store} (before : Evolves s t) : Evolves s t.newRoot.2
  | newChild {s t : Store} (before : Evolves s t) {scope : Scope}
      (present : scope.index < t.frames.size) : Evolves s (t.newChild scope).2

namespace Evolves

variable {s t : Store}

theorem nested (h : s.Evolves t) (nested : s.Nested) : t.Nested := by
  induction h with
  | refl => exact nested
  | modify _ scope fixed ih => exact ih.modify scope fixed
  | newRoot _ ih => exact ih.push (.inl rfl)
  | newChild _ present ih => exact ih.push (.inr ⟨_, present, rfl⟩)

theorem size_le (h : s.Evolves t) : s.frames.size ≤ t.frames.size := by
  induction h with
  | refl => exact Nat.le_refl _
  | modify _ scope fixed ih => simpa [Store.modify] using ih
  | newRoot _ ih | newChild _ _ ih =>
      simp only [Store.newRoot, Store.newChild, Store.push, Array.size_push]
      omega

theorem parent?_eq (h : s.Evolves t) {scope : Scope} (present : scope.index < s.frames.size) :
    t.parent? scope = s.parent? scope := by
  induction h with
  | refl => rfl
  | modify _ other fixed ih => rw [parent?_modify _ other scope fixed, ih]
  | newRoot before ih | newChild before _ ih =>
      exact (parent?_push_of_lt _ _ (Nat.lt_of_lt_of_le present before.size_le)).trans ih

theorem clearAll (before : s.Evolves t) (scopes : List Scope) : s.Evolves (t.clearAll scopes) := by
  induction scopes generalizing t with
  | nil => exact before
  | cons scope rest ih => exact ih (before.modify scope fun _ => rfl)

theorem assign {u : Store} {scope : Scope} {name : String} {value : Value}
    (before : s.Evolves t) (assigned : t.assign scope name value = .ok u) : s.Evolves u := by
  unfold Store.assign at assigned
  split at assigned
  · cases assigned
  · split at assigned
    · cases assigned
    · cases assigned
      exact before.modify _ fun _ => rfl

theorem define {u : Store} {scope : Scope} {name : String} {value : Value}
    (before : s.Evolves t) (defined : t.define scope name value = .ok u) : s.Evolves u := by
  unfold Store.define at defined
  split at defined
  · cases defined
  · cases defined
    exact before.modify _ fun _ => rfl

end Evolves

end Store

/-! ## Ledgers -/

namespace Ledger

def Step.scope? : Step → Option Scope
  | .newRoot | .release => none
  | .newChild scope | .define scope _ _ | .bind scope _ _ | .assign scope _ _ | .get scope _
  | .sealScope scope | .clear scope | .note scope => some scope

/-- The ledgers that a history of steps can lead to, each about a scope made before. -/
inductive Reachable : List Step → Ledger → Prop
  | empty : Reachable [] .empty
  | step {history : List Step} {ledger : Ledger} {step : Step} (before : Reachable history ledger)
      (known : ∀ scope, step.scope? = some scope → scope.index < ledger.store.frames.size) :
      Reachable (history ++ [step]) (ledger.step step).1

def NotedSince (history : List Step) (scope : Scope) : Prop :=
  ∃ before after, history = before ++ .note scope :: after ∧ .release ∉ after

private theorem notedSince_append {history : List Step} {step : Step} {scope : Scope} :
    NotedSince (history ++ [step]) scope ↔
      step = .note scope ∨ step ≠ .release ∧ NotedSince history scope := by
  constructor
  · rintro ⟨before, after, same, kept⟩
    rcases List.eq_nil_or_concat after with rfl | ⟨after, last, rfl⟩
    · left
      have ends := (List.append_inj' same rfl).2
      simpa using ends
    · right
      rw [List.concat_eq_append, ← List.cons_append, ← List.append_assoc] at same
      obtain ⟨rfl, ends⟩ := List.append_inj' same rfl
      simp only [List.cons.injEq, and_true] at ends
      subst ends
      simp only [List.concat_eq_append, List.mem_append, List.mem_singleton, not_or] at kept
      exact ⟨Ne.symm kept.2, before, after, rfl, kept.1⟩
  · rintro (rfl | ⟨other, before, after, rfl, kept⟩)
    · exact ⟨history, [], rfl, List.not_mem_nil⟩
    · refine ⟨before, after ++ [step], by simp, ?_⟩
      simp only [List.mem_append, List.mem_singleton, not_or]
      exact ⟨kept, Ne.symm other⟩

variable {history : List Step} {ledger : Ledger}

theorem change_evolves {result : Except RuntimeFault Store}
    (evolves : ∀ store, result = .ok store → ledger.store.Evolves store) :
    ledger.store.Evolves (ledger.change result).1.store := by
  cases result with
  | ok store => exact evolves store rfl
  | error fault => exact .refl _

@[simp] theorem change_noted (result : Except RuntimeFault Store) :
    (ledger.change result).1.noted = ledger.noted := by
  cases result <;> rfl

theorem step_evolves {step : Step}
    (known : ∀ scope, step.scope? = some scope → scope.index < ledger.store.frames.size) :
    ledger.store.Evolves (ledger.step step).1.store := by
  cases step with
  | newRoot => exact .newRoot (.refl _)
  | newChild outer => exact .newChild (.refl _) (known outer rfl)
  | define => exact change_evolves fun _ defined => .define (.refl _) defined
  | assign => exact change_evolves fun _ assigned => .assign (.refl _) assigned
  | bind | sealScope | clear => exact .modify (.refl _) _ fun _ => rfl
  | get | note => exact .refl _
  | release => exact .clearAll (.refl _) _

private theorem step_fails {step : Step} {fault : RuntimeFault}
    (failed : (ledger.step step).2 = .error fault) : (ledger.step step).1 = ledger := by
  have refused : ∀ result, (ledger.change result).2 = .error fault →
      (ledger.change result).1 = ledger := by
    intro result failed
    cases result with
    | ok store => cases failed
    | error fault => rfl
  cases step with
  | newRoot | newChild | note | release => cases failed
  | define | assign | bind | sealScope | clear => exact refused _ failed
  | get => rfl

structure Sound (history : List Step) (ledger : Ledger) : Prop where
  nested : ledger.store.Nested
  noted (scope : Scope) : scope ∈ ledger.noted ↔ NotedSince history scope

theorem Sound.step (sound : Sound history ledger) {step : Step}
    (known : ∀ scope, step.scope? = some scope → scope.index < ledger.store.frames.size) :
    Sound (history ++ [step]) (ledger.step step).1 where
  nested := (step_evolves known).nested sound.nested
  noted scope := by
    rw [notedSince_append, ← sound.noted]
    cases step with
    | note other => simp [Ledger.step, eq_comm]
    | release => simp [Ledger.step, Ledger.release]
    | newRoot | newChild | define | bind | assign | get | sealScope | clear =>
        simp [Ledger.step, Ledger.make]

theorem Reachable.sound (reachable : Reachable history ledger) : Sound history ledger := by
  induction reachable with
  | empty =>
      refine ⟨.empty, fun scope => ?_⟩
      simp [Ledger.empty, NotedSince]
  | step _ known ih => exact ih.step known

/--
After any steps, the scopes of a ledger are nested tables.  Each stays in the one
it was made in, and walks outwards end.  Names are read and assigned where they
are bound nearest, and declared in the scope itself, with no effect on any other
name or scope but those that see the changed binding.  A release empties the
scopes that were noted since the last one, and a step that fails does nothing.
-/
theorem Reachable.nested_tables (reachable : Reachable history ledger) :
    (∀ scope, scope.index < ledger.store.frames.size →
        (ledger.store.newChild scope).2.parent? (ledger.store.newChild scope).1 = some scope ∧
        ∀ step, (∀ other, step.scope? = some other → other.index < ledger.store.frames.size) →
          (ledger.step step).1.store.parent? scope = ledger.store.parent? scope) ∧
      WellFounded (fun outer inner => ledger.store.parent? inner = some outer) ∧
      (∀ scope name, ledger.store.ReadsNearest scope name) ∧
      (∀ scope name value, ledger.store.AssignsNearest scope name value) ∧
      (∀ scope name value, scope.index < ledger.store.frames.size →
        ledger.store.DeclaresHere scope name value) ∧
      (∀ scope,
        (NotedSince history scope →
          (ledger.step .release).1.store.frame scope = (ledger.store.frame scope).clear) ∧
        (¬ NotedSince history scope →
          (ledger.step .release).1.store.frame scope = ledger.store.frame scope)) ∧
      ∀ step fault, (ledger.step step).2 = .error fault → (ledger.step step).1 = ledger := by
  obtain ⟨nested, noted⟩ := reachable.sound
  refine ⟨fun scope present => ⟨?_, fun step known => ?_⟩, nested.wellFounded,
    nested.readsNearest, nested.assignsNearest,
    fun scope name value present => nested.declaresHere present name value, fun scope => ?_,
    fun step fault => step_fails⟩
  · rw [Store.parent?, Store.newChild, Store.frame_push_self]
    rfl
  · exact (step_evolves known).parent?_eq present
  · rw [← noted]
    simp only [Ledger.step, Ledger.release, Store.frame_clearAll]
    exact ⟨fun member => if_pos member, fun absent => if_neg absent⟩

/-- A sealed scope, one inside it that is noted, and a third that shadows a name of the second. -/
theorem Reachable.nested_tables_with_shadowing :
    let history : List Step := [.newRoot, .bind ⟨0⟩ "pi" (.number 3), .sealScope ⟨0⟩,
      .newChild ⟨0⟩, .define ⟨1⟩ "a" .null, .note ⟨1⟩, .newChild ⟨1⟩, .define ⟨2⟩ "a" .void]
    ∃ ledger, Reachable history ledger ∧ NotedSince history ⟨1⟩ ∧ ¬ NotedSince history ⟨2⟩ ∧
      ledger.store.get ⟨2⟩ "a" = .ok .void ∧
      ledger.store.get ⟨2⟩ "b" = .error (.undefinedVariable "b") ∧
      ledger.store.assign ⟨2⟩ "pi" .null = .error (.readOnly "pi") ∧
      ledger.store.define ⟨2⟩ "a" .null = .error (.redeclaration "a") ∧
      (∃ t, ledger.store.assign ⟨2⟩ "a" (.boolean true) = .ok t ∧
        t.get ⟨2⟩ "a" = .ok (.boolean true) ∧ t.get ⟨1⟩ "a" = ledger.store.get ⟨1⟩ "a") ∧
      (ledger.step .release).1.store.frame ⟨1⟩ = (ledger.store.frame ⟨1⟩).clear ∧
      (ledger.step .release).1.store.frame ⟨2⟩ = ledger.store.frame ⟨2⟩ := by
  intro history
  have reachable : ∃ ledger, Reachable history ledger ∧
      ledger = history.foldl (fun ledger step => (ledger.step step).1) .empty :=
    ⟨_, .step (.step (.step (.step (.step (.step (.step (.step .empty
      (by rintro _ ⟨⟩)) (by rintro _ ⟨⟩; decide)) (by rintro _ ⟨⟩; decide))
      (by rintro _ ⟨⟩; decide)) (by rintro _ ⟨⟩; decide)) (by rintro _ ⟨⟩; decide))
      (by rintro _ ⟨⟩; decide))
      (by rintro _ ⟨⟩; decide), rfl⟩
  obtain ⟨ledger, reachable, rfl⟩ := reachable
  obtain ⟨_, _, reads, assigns, declares, releases, _⟩ := reachable.nested_tables
  have noted : NotedSince history ⟨1⟩ := ⟨history.take 5, history.drop 6, rfl, by simp [history]⟩
  have unnoted : ¬ NotedSince history ⟨2⟩ := by
    rw [← reachable.sound.noted]
    decide
  obtain ⟨value, found, read⟩ := (reads ⟨2⟩ "a").found (.here (by decide))
  cases found
  obtain ⟨t, assigned, after⟩ := (assigns ⟨2⟩ "a" (.boolean true)).otherwise
    (.here (by decide)) (by decide)
  have unseen : ∀ holder, ¬ Store.Nearest _ "b" ⟨2⟩ holder :=
    (reachable.sound.nested.no_nearest_iff).mpr (by decide)
  refine ⟨_, reachable, noted, unnoted, read, (reads ⟨2⟩ "b").undefined.mpr unseen, ?_, ?_,
    ⟨t, assigned, (after ⟨2⟩ "a").1 ⟨rfl, .here (by decide)⟩, (after ⟨1⟩ "a").2 ?_⟩,
    (releases ⟨1⟩).1 noted, (releases ⟨2⟩).2 unnoted⟩
  · exact (assigns ⟨2⟩ "pi" .null).readOnly.mpr
      ⟨⟨0⟩, .outside (by decide) rfl (.outside (by decide) rfl (.here (by decide))), by decide⟩
  · exact (declares ⟨2⟩ "a" .null (by decide)).redeclared.mpr (by decide)
  · rintro ⟨_, seen⟩
    have held := reachable.sound.nested.nearest_iff.mp seen
    exact absurd held (by decide)

end Ledger

end Ardoise
