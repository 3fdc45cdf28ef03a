import Ardoise.Proofs.Sessions.Grounds

/-!
# The scopes of a session

A session makes scopes inside its own, and works on no others: its runs bind names in
them only, and hold no functions but those that were declared there.  After a reset
it does not come back to the scopes that it made before.  Their tables stay as the
reset left them, and all the session knows of functions declared there is what these
tables still hold.
-/

namespace Ardoise

/-! ## Scopes -/

def Frame.HoldsOnly (F : Function → Prop) (frame : Frame) : Prop :=
  ∀ name value, frame.get? name = some value → value.Holds F

theorem Frame.HoldsOnly.mono {F G : Function → Prop} {frame : Frame} (h : frame.HoldsOnly F)
    (weaker : ∀ f, F f → G f) : frame.HoldsOnly G :=
  fun name value found => (h name value found).mono weaker

theorem Frame.holdsOnly_of_empty {F : Function → Prop} {frame : Frame}
    (empty : frame.bindings = []) : frame.HoldsOnly F := by
  intro name value found
  rw [Frame.get?, empty] at found
  cases found

/-- The scopes inside that of a session which were made when there were `base` others. -/
structure Estate where
  root : Scope
  library : Scope
  base : Nat

namespace Store

variable {s t : Store} {outline more : List (List Scope)} {a b : Scope}

theorem walk_of_longer (longer : outline <+: more) (present : a.index < outline.length) :
    walk more a = walk outline a := by
  obtain ⟨rest, rfl⟩ := longer
  rw [walk, walk, List.getElem?_append_left present]

private theorem exists_bind_of_assign {name : String} {value : Value}
    (assigned : s.assign a name value = .ok t) :
    ∃ holder ∈ s.chain a, (s.frame holder).isSealed = false ∧ t = s.bind holder name value := by
  unfold Store.assign at assigned
  split at assigned
  · cases assigned
  · rename_i holder held
    split at assigned
    · cases assigned
    · rename_i unsealed
      cases assigned
      exact ⟨holder, List.mem_of_find?_eq_some held, by simpa using unsealed, rfl⟩

theorem Nested.suffix_of_mem_chain (nested : s.Nested) (member : b ∈ s.chain a) :
    s.chain b <:+ s.chain a := by
  induction a using nested.wellFounded.induction with
  | _ a ih =>
      cases parent : s.parent? a with
      | none =>
          rw [nested.chain_of_root parent, List.mem_singleton] at member
          exact member ▸ List.suffix_rfl
      | some c =>
          have chain := nested.chain_of_parent parent
          rw [chain] at member
          rcases List.mem_cons.mp member with rfl | further
          · exact List.suffix_rfl
          · rw [chain]
            exact (ih c parent further).trans (List.suffix_cons a _)

private theorem get?_bind_or {name x : String} {value v : Value}
    (found : ((s.bind a name value).frame b).get? x = some v) :
    (s.frame b).get? x = some v ∨ v = value := by
  by_cases same : b = a
  · subst same
    by_cases present : b.index < s.frames.size
    · rw [Store.bind, frame_modify_self s _ present] at found
      by_cases named : x = name
      · subst named
        rw [Frame.get?_bind_self] at found
        exact .inr (Option.some.inj found).symm
      · rw [Frame.get?_bind_of_ne _ _ named] at found
        exact .inl found
    · have absent := Nat.not_lt.mp present
      rw [frame_of_absent _ (by rwa [size_bind])] at found
      cases found
  · rw [Store.bind, frame_modify_of_ne s _ same] at found
    exact .inl found

theorem outline_clearAll (s : Store) (scopes : List Scope) :
    (s.clearAll scopes).outline = s.outline := by
  induction scopes generalizing s with
  | nil => rfl
  | cons scope rest ih => exact (ih _).trans (outline_modify s scope fun _ => rfl)

theorem bindings_clearAll_of_mem (s : Store) {scopes : List Scope} (member : a ∈ scopes) :
    ((s.clearAll scopes).frame a).bindings = [] := by
  rw [frame_clearAll, if_pos member]
  rfl

theorem frame_clearAll_of_not_mem (s : Store) {scopes : List Scope} (apart : a ∉ scopes) :
    (s.clearAll scopes).frame a = s.frame a := by
  rw [frame_clearAll, if_neg apart]

end Store

namespace Estate

/-- From the scope outwards, there are scopes made late enough, then the session's own. -/
def Has (p : Estate) (outline : List (List Scope)) (a : Scope) : Prop :=
  a.index < outline.length ∧
    ∃ inner, Store.walk outline a = inner ++ [p.root, p.library] ∧ ∀ x ∈ inner, p.base ≤ x.index

variable {p : Estate} {s : Store} {outline more : List (List Scope)} {a b : Scope}

theorem has_iff_of_longer (longer : outline <+: more) (present : a.index < outline.length) :
    p.Has more a ↔ p.Has outline a := by
  unfold Has
  rw [Store.walk_of_longer longer present]
  have there : a.index < more.length := Nat.lt_of_lt_of_le present longer.length_le
  simp only [present, there]

theorem Has.mono (h : p.Has outline a) (longer : outline <+: more) : p.Has more a :=
  (has_iff_of_longer longer h.1).mpr h

private theorem Has.child (h : p.Has outline a) (late : p.base ≤ outline.length) :
    p.Has (outline ++ [Store.walk outline a]) ⟨outline.length⟩ := by
  obtain ⟨_, inner, walk, each⟩ := h
  refine ⟨by simp, ⟨outline.length⟩ :: inner, ?_, List.forall_mem_cons.mpr ⟨late, each⟩⟩
  rw [Store.walk, walk]
  simp

/-- Outside the library, the scopes around one of the estate are of the estate. -/
theorem Has.outwards (nested : s.Nested) (h : p.Has s.outline a) (member : b ∈ s.chain a) :
    b = p.library ∨ p.Has s.outline b := by
  have present : b.index < s.outline.length :=
    Nat.lt_of_le_of_lt (nested.index_le_of_mem_chain member) h.1
  obtain ⟨-, inner, walk, each⟩ := h
  obtain ⟨passed, rest⟩ := nested.suffix_of_mem_chain member
  rw [← Store.walk_outline s a, walk] at rest
  rcases List.append_eq_append_iff.mp rest with ⟨left, rfl, chain⟩ | ⟨left, rfl, chain⟩
  · refine .inr ⟨present, left, by rw [Store.walk_outline, chain], fun x member => ?_⟩
    exact each x (List.mem_append_right _ member)
  · -- the walk from there is the whole of the end, or the library alone
    cases left with
    | nil => exact .inr ⟨present, [], (Store.walk_outline s b).trans chain.symm, by simp⟩
    | cons c left =>
        cases left with
        | nil => exact .inl (List.cons.inj (List.cons.inj chain).2).1.symm
        | cons d left => simp [Store.chain] at chain

/-! ## Runs -/

structure Account where
  outline : List (List Scope)
  noted : List Scope

namespace Account

structure Before (w w' : Account) : Prop where
  outline : w.outline <+: w'.outline
  noted : w.noted ⊆ w'.noted

def enter (w : Account) (outer : Scope) : Account :=
  { w with outline := w.outline ++ [Store.walk w.outline outer] }

def note (w : Account) (scope : Scope) : Account :=
  { w with noted := scope :: w.noted }

theorem before_enter (w : Account) (outer : Scope) : w.Before (w.enter outer) :=
  ⟨List.prefix_append _ _, fun _ member => member⟩

theorem length_enter (w : Account) (outer : Scope) :
    (w.enter outer).outline.length = w.outline.length + 1 := by
  simp [enter]

theorem before_note (w : Account) (scope : Scope) : w.Before (w.note scope) :=
  ⟨List.prefix_rfl, fun _ member => List.mem_cons_of_mem _ member⟩

end Account

def Owns (p : Estate) (w : Account) : Function → Prop
  | .builtin _ _ => True
  | .closure f => f.scope ∈ w.noted ∧ p.Has w.outline f.scope

theorem Owns.mono {w w' : Account} (before : w.Before w') {f : Function} (h : p.Owns w f) :
    p.Owns w' f := by
  cases f with
  | builtin => trivial
  | closure f => exact ⟨before.noted h.1, h.2.mono before.outline⟩

structure Lies (p : Estate) (start : Store) : Prop where
  base : p.base ≤ start.frames.size
  present : p.library.index < start.frames.size
  alone : start.chain p.library = [p.library]
  isSealed : (start.frame p.library).isSealed = true
  builtins : ∀ F : Function → Prop, (∀ f, F (.builtin f f.arity)) →
    (start.frame p.library).HoldsOnly F

/-- The machine works in the estate, and has left all else as it was to start with. -/
structure Fits (p : Estate) (start : Store) (w : Account) (m : Machine) : Prop where
  outline : m.store.outline = w.outline
  captured : m.captured = w.noted
  nested : m.store.Nested
  grown : start.outline <+: w.outline
  scope : p.Has w.outline m.scope
  noted : ∀ a ∈ w.noted, p.Has w.outline a
  holds : ∀ a, p.Has w.outline a → (m.store.frame a).HoldsOnly (p.Owns w)
  frozen : ∀ a, a.index < start.frames.size → ¬ p.Has w.outline a → m.store.frame a = start.frame a
  made : ∀ a, start.frames.size ≤ a.index → a.index < w.outline.length → p.Has w.outline a

variable {start : Store} {w : Account} {m : Machine}

theorem Lies.not_has (lies : p.Lies start) (longer : start.outline <+: outline) :
    ¬ p.Has outline p.library := by
  rintro ⟨_, inner, walk, _⟩
  rw [Store.walk_of_longer longer (by simpa using lies.present), Store.walk_outline,
    lies.alone] at walk
  have lengths := congrArg List.length walk
  simp at lengths

theorem Fits.bind (h : p.Fits start w m) {holder : Scope} (here : p.Has w.outline holder)
    {value : Value} (owned : value.Holds (p.Owns w)) (name : String) :
    p.Fits start w { m with store := m.store.bind holder name value } where
  outline := (Store.outline_bind m.store holder name value).trans h.outline
  captured := h.captured
  nested := h.nested.modify holder fun _ => rfl
  grown := h.grown
  scope := h.scope
  noted := h.noted
  holds a has x v found := by
    rcases Store.get?_bind_or found with before | rfl
    · exact h.holds a has x v before
    · exact owned
  frozen a present outside := by
    have apart : a ≠ holder := fun same => outside (same ▸ here)
    exact (Store.frame_modify_of_ne m.store _ apart).trans (h.frozen a present outside)
  made := h.made

theorem Fits.enter (lies : p.Lies start) (h : p.Fits start w m) {outer : Scope}
    (here : p.Has w.outline outer) :
    p.Fits start (w.enter outer) (m.enter outer) := by
  have size : w.outline.length = m.store.frames.size := by rw [← h.outline, Store.length_outline]
  have longer : w.outline <+: w.outline ++ [Store.walk w.outline outer] := List.prefix_append _ _
  have larger : start.frames.size ≤ w.outline.length := by simpa using h.grown.length_le
  have new : p.Has (w.outline ++ [Store.walk w.outline outer]) ⟨w.outline.length⟩ :=
    here.child (Nat.le_trans lies.base larger)
  have last : (m.enter outer).scope = ⟨w.outline.length⟩ := congrArg Scope.mk size.symm
  refine ⟨?_, h.captured, ?_, h.grown.trans longer, last ▸ new,
    fun a member => (h.noted a member).mono longer, ?_, ?_, ?_⟩
  · refine (Store.outline_push _ _).trans ?_
    rw [h.outline, ← Store.walk_outline, h.outline]
    rfl
  · exact h.nested.push (.inr ⟨outer, size ▸ here.1, rfl⟩)
  · intro a has x v found
    rcases Nat.lt_or_ge a.index w.outline.length with old | beyond
    · rw [Machine.enter, Store.newChild, Store.frame_push_of_lt _ _ (size ▸ old)] at found
      exact (h.holds a ((has_iff_of_longer longer old).mp has) x v found).mono
        fun _ => .mono (w.before_enter outer)
    · obtain rfl : a = (m.store.push (m.store.chain outer)).1 := by
        have within := has.1
        rw [Account.length_enter] at within
        exact congrArg Scope.mk (by omega : a.index = m.store.frames.size)
      rw [Machine.enter, Store.newChild, Store.frame_push_self] at found
      cases found
  · intro a present outside
    have before := h.frozen a present fun has => outside (has.mono longer)
    rw [← before]
    exact Store.frame_push_of_lt _ _ (by omega)
  · intro a late present
    rw [Account.length_enter] at present
    rcases Nat.lt_or_ge a.index w.outline.length with old | beyond
    · exact (h.made a late old).mono longer
    · have last : a.index = w.outline.length := by omega
      obtain rfl : a = ⟨w.outline.length⟩ := congrArg Scope.mk last
      exact new

def custody (p : Estate) (start : Store) : Custody Account where
  later := Account.Before
  owns := p.Owns
  fits := p.Fits start

private theorem custody_kept (lies : p.Lies start) (limit : Nat) :
    (p.custody start).Kept limit fun _ => True where
  refl w := ⟨List.prefix_rfl, fun _ member => member⟩
  trans first second :=
    ⟨first.outline.trans second.outline, fun _ member => second.noted (first.noted member)⟩
  visited _ _ := trivial
  mono later owned := owned.mono later
  quiet _ _ _ h := ⟨h.outline, h.captured, h.nested, h.grown, h.scope, h.noted, h.holds, h.frozen,
    h.made⟩
  get {w m name value} h found := by
    unfold Store.get at found
    split at found
    · rename_i held
      cases found
      obtain ⟨holder, member, here⟩ := List.exists_of_findSome?_eq_some held
      rcases (h.outline ▸ h.scope : p.Has m.store.outline m.scope).outwards h.nested member with
        rfl | has
      · rw [h.frozen _ lies.present (lies.not_has h.grown)] at here
        exact lies.builtins _ (fun _ => trivial) name value here
      · exact h.holds holder (h.outline ▸ has) name value here
    · cases found
  assign {w m name value store} h has assigned := by
    obtain ⟨holder, member, unsealed, rfl⟩ := Store.exists_bind_of_assign assigned
    rcases (h.outline ▸ h.scope : p.Has m.store.outline m.scope).outwards h.nested member with
      rfl | here
    · rw [h.frozen _ lies.present (lies.not_has h.grown), lies.isSealed] at unsealed
      cases unsealed
    · exact h.bind (h.outline ▸ here) has name
  declare {w m name value store} h has defined := by
    rw [Store.eq_bind_of_define defined]
    exact h.bind h.scope has name
  make {w m} name parameters body h := by
    refine ⟨w.note m.scope, w.before_note m.scope, ⟨List.mem_cons_self, h.scope⟩,
      h.outline, congrArg _ h.captured, h.nested, h.grown, h.scope,
      List.forall_mem_cons.mpr ⟨h.scope, h.noted⟩, ?_, h.frozen, h.made⟩
    exact fun a has => (h.holds a has).mono fun _ owned => owned.mono (w.before_note m.scope)
  enter {w m} h := ⟨w.enter m.scope, w.before_enter _, h.enter lies h.scope⟩
  call {w m fuel f arguments span} _ h owned :=
    ⟨w.enter f.scope, w.before_enter _, h.enter lies owned.2⟩
  leave before later h := ⟨h.outline, h.captured, h.nested, h.grown,
    before.scope.mono later.outline, h.noted, h.holds, h.frozen, h.made⟩

/-! ## From run to run -/

def Made (p : Estate) (s : Store) (a : Scope) : Prop :=
  { p with base := 0 }.Has s.outline a

theorem Has.toMade (h : p.Has s.outline a) : p.Made s a := by
  obtain ⟨present, inner, walk, _⟩ := h
  exact ⟨present, inner, walk, fun _ _ => Nat.zero_le _⟩

/--
If the function was declared, then in the scope of the session, or in one inside it
that is not of the estate and is empty.
-/
def Left (p : Estate) (s : Store) : Function → Prop
  | .builtin _ _ => True
  | .closure f => p.Made s f.scope ∧
      (f.scope = p.root ∨ ¬ p.Has s.outline f.scope ∧ (s.frame f.scope).bindings = [])

/--
What a session has made, if the estate begins with its last reset: the functions that
are held in scopes of the estate were declared there, which was noted, and those that
are held in older ones are left over.
-/
structure Settled (p : Estate) (s : Store) (captured : List Scope) : Prop where
  base_le : p.base ≤ s.frames.size
  noted : ∀ a ∈ captured, p.Has s.outline a
  holds : ∀ a, p.Has s.outline a → (s.frame a).HoldsOnly (p.Owns ⟨s.outline, captured⟩)
  left : ∀ a, p.Made s a → ¬ p.Has s.outline a → (s.frame a).HoldsOnly (p.Left s)

structure Works (p : Estate) (s t : Store) : Prop where
  outline : s.outline <+: t.outline
  frame : ∀ a, a.index < s.frames.size → ¬ p.Made s a → t.frame a = s.frame a
  made : ∀ a, s.frames.size ≤ a.index → a.index < t.frames.size → p.Made t a

variable {q : Estate} {t u : Store} {captured : List Scope}

theorem size_le_of_outline (longer : s.outline <+: t.outline) : s.frames.size ≤ t.frames.size := by
  simpa using longer.length_le

theorem made_iff_of_longer (longer : s.outline <+: t.outline) (present : a.index < s.frames.size) :
    p.Made t a ↔ p.Made s a :=
  has_iff_of_longer longer (by simpa using present)

theorem Made.present (h : p.Made s a) : a.index < s.frames.size := by
  simpa using h.1

private theorem Works.rebase (h : p.Works s t) (base : Nat) : { p with base := base }.Works s t :=
  ⟨h.outline, h.frame, h.made⟩

theorem Works.trans (first : p.Works s t) (second : p.Works t u) : p.Works s u where
  outline := first.outline.trans second.outline
  frame a present foreign := by
    have present' := Nat.lt_of_lt_of_le present (size_le_of_outline first.outline)
    have foreign' := (made_iff_of_longer first.outline present).not.mpr foreign
    exact (second.frame a present' foreign').trans (first.frame a present foreign)
  made a late present := by
    rcases Nat.lt_or_ge a.index t.frames.size with old | new
    · exact (made_iff_of_longer second.outline old).mpr (first.made a late old)
    · exact second.made a new present

theorem Left.mono (longer : s.outline <+: t.outline)
    (frozen : ∀ a, p.Made s a → ¬ p.Has s.outline a → t.frame a = s.frame a)
    {f : Function} (h : p.Left s f) : p.Left t f := by
  cases f with
  | builtin => trivial
  | closure f =>
      refine ⟨h.1.mono longer, h.2.imp_right fun old => ?_⟩
      refine ⟨(has_iff_of_longer longer h.1.1).not.mpr old.1, ?_⟩
      rw [frozen f.scope h.1 old.1]
      exact old.2

theorem Settled.fits (h : p.Settled m.store m.captured) (nested : m.store.Nested)
    (scope : p.Has m.store.outline m.scope) :
    p.Fits m.store ⟨m.store.outline, m.captured⟩ m where
  outline := rfl
  captured := rfl
  nested := nested
  grown := List.prefix_rfl
  scope := scope
  noted := h.noted
  holds := h.holds
  frozen _ _ _ := rfl
  made a late present := absurd present (by simpa using late)

theorem Fits.works (h : p.Fits start w m) : p.Works start m.store := by
  obtain ⟨outline, noted⟩ := w
  obtain rfl := h.outline
  refine ⟨h.grown, fun a present foreign => ?_, fun a late present => ?_⟩
  · refine h.frozen a present fun has => foreign ?_
    exact ((has_iff_of_longer h.grown (by simpa using present)).mp has).toMade
  · exact (h.made a late (by simpa using present)).toMade

private theorem Settled.of_fits (h : p.Settled start captured) (ran : p.Fits start w m) :
    p.Settled m.store m.captured := by
  obtain ⟨outline, noted⟩ := w
  obtain rfl := ran.outline
  obtain rfl := ran.captured
  refine ⟨Nat.le_trans h.base_le (size_le_of_outline ran.grown), ran.noted, ran.holds, ?_⟩
  intro a made outside
  -- what the run has made is of the estate
  have old : a.index < start.frames.size := by
    by_contra late
    exact outside (ran.made a (Nat.not_lt.mp late) made.1)
  have outside' := (has_iff_of_longer ran.grown (by simpa using old)).not.mp outside
  rw [ran.frozen a old outside]
  refine (h.left a ((made_iff_of_longer ran.grown old).mp made) outside').mono fun f left => ?_
  refine left.mono ran.grown fun b made outside => ran.frozen b made.present ?_
  exact (has_iff_of_longer ran.grown made.1).not.mpr outside

theorem Has.eq_root (h : p.Has outline a) (late : outline.length ≤ p.base) : a = p.root := by
  obtain ⟨present, inner, walk, each⟩ := h
  cases inner with
  | nil => exact (List.cons.inj walk).1
  | cons b inner =>
      obtain rfl : a = b := (List.cons.inj walk).1
      have := each a List.mem_cons_self
      omega

/-- To empty what was noted and the scope of the session is to begin a new estate. -/
theorem Settled.clear (h : p.Settled s captured) :
    { p with base := s.frames.size }.Settled (s.clearAll (captured ++ [p.root])) [] := by
  have outline := s.outline_clearAll (captured ++ [p.root])
  have size : (s.clearAll (captured ++ [p.root])).frames.size = s.frames.size := by
    rw [← Store.length_outline, outline, Store.length_outline]
  have emptied : ∀ {a}, a ∈ captured ++ [p.root] →
      ((s.clearAll (captured ++ [p.root])).frame a).bindings = [] :=
    fun member => s.bindings_clearAll_of_mem member
  have only : ∀ {a}, { p with base := s.frames.size }.Has
      (s.clearAll (captured ++ [p.root])).outline a → a = p.root :=
    fun has => has.eq_root (by simp [size])
  refine ⟨Nat.le_of_eq size.symm, by simp, fun a has => ?_, fun a made _ => ?_⟩
  · exact Frame.holdsOnly_of_empty (emptied (by simp [only has]))
  · by_cases member : a ∈ captured ++ [p.root]
    · exact Frame.holdsOnly_of_empty (emptied member)
    rw [s.frame_clearAll_of_not_mem member]
    -- a function that is still held is left over from now on, or has long been
    have leave : ∀ f : Closure, p.Made s f.scope →
        f.scope ∈ captured ∨ (s.frame f.scope).bindings = [] →
        { p with base := s.frames.size }.Left (s.clearAll (captured ++ [p.root])) (.closure f) := by
      intro f made old
      refine ⟨by rwa [Made, outline], (em (f.scope = p.root)).imp_right fun differs => ?_⟩
      refine ⟨fun has => differs (only has), ?_⟩
      by_cases noted : f.scope ∈ captured ++ [p.root]
      · exact emptied noted
      · rw [s.frame_clearAll_of_not_mem noted]
        exact old.resolve_left fun member => noted (List.mem_append_left _ member)
    rw [Made, outline] at made
    by_cases has : p.Has s.outline a
    · refine (h.holds a has).mono fun f owned => ?_
      cases f with
      | builtin => trivial
      | closure f => exact leave f owned.2.toMade (.inl owned.1)
    · refine (h.left a made has).mono fun f left => ?_
      cases f with
      | builtin => trivial
      | closure f =>
          rcases left with ⟨made, own | ⟨_, empty⟩⟩
          · exact ⟨by rwa [Made, outline], .inl own⟩
          · exact leave f made (.inr empty)

theorem Made.eq_root (here : p.Made s a) (there : q.Made s a) : p.root = q.root := by
  obtain ⟨_, inner, walk, _⟩ := here
  obtain ⟨_, inner', walk', _⟩ := there
  exact (List.cons.inj (List.append_inj' (walk.symm.trans walk') rfl).2).1

/-- A session is as settled as it was when another one has worked. -/
theorem Settled.elsewhere (h : p.Settled s captured) (works : q.Works s t)
    (apart : q.root ≠ p.root) : p.Settled t captured := by
  have old : ∀ {a}, p.Made t a → p.Made s a := by
    intro a made
    rcases Nat.lt_or_ge a.index s.frames.size with present | late
    · exact (made_iff_of_longer works.outline present).mp made
    · exact absurd ((works.made a late made.present).eq_root made) apart
  have same : ∀ a, p.Made s a → t.frame a = s.frame a := fun a made =>
    works.frame a made.present fun there => apart (there.eq_root made)
  refine ⟨Nat.le_trans h.base_le (size_le_of_outline works.outline),
    fun a member => (h.noted a member).mono works.outline, fun a has => ?_,
    fun a made outside => ?_⟩
  · have made := old has.toMade
    have before : Account.Before ⟨s.outline, captured⟩ ⟨t.outline, captured⟩ :=
      ⟨works.outline, fun _ member => member⟩
    rw [same a made]
    exact (h.holds a ((has_iff_of_longer works.outline made.1).mp has)).mono
      fun _ owned => owned.mono before
  · have made := old made
    rw [same a made]
    refine (h.left a made ((has_iff_of_longer works.outline made.1).not.mp outside)).mono
      fun f left => ?_
    exact left.mono works.outline fun b made _ => same b made

end Estate

/-! ## Worlds -/

def Session.estate (session : Session) (world : World) (base : Nat) : Estate :=
  ⟨session.scope, world.library, base⟩

namespace World

variable {world next : World} {session : Session}

def Settles (world : World) (session : Session) : Prop :=
  ∃ base, (session.estate world base).Settled world.store session.captured

structure Tends (world next : World) (scope : Scope) : Prop where
  library : next.library = world.library
  works : Estate.Works ⟨scope, world.library, 0⟩ world.store next.store

theorem Tends.trans {last : World} {scope : Scope} (first : world.Tends next scope)
    (second : next.Tends last scope) : world.Tends last scope := by
  refine ⟨second.library.trans first.library, first.works.trans ?_⟩
  have works := second.works
  rwa [first.library] at works

theorem Settles.elsewhere (settles : world.Settles session) {scope : Scope}
    (tends : world.Tends next scope) (apart : scope ≠ session.scope) : next.Settles session := by
  obtain ⟨base, settled⟩ := settles
  refine ⟨base, ?_⟩
  rw [Session.estate, tends.library]
  exact settled.elsewhere tends.works apart

theorem estate_has_scope (fits : session.Fits world) (base : Nat) :
    (session.estate world base).Has world.store.outline session.scope := by
  refine ⟨by simpa using fits.present, [], ?_, by simp⟩
  rw [Store.walk_outline, Store.chain, fits.outer]
  rfl

theorem Intact.holdsOnly_library (intact : world.Intact) {F : Function → Prop}
    (each : ∀ f, F (.builtin f f.arity)) : (world.store.frame world.library).HoldsOnly F := by
  intro name value found
  rw [intact.frame] at found
  exact initial_each (V := Value.Holds F) (fun f => .function (each f)) _ name value found

theorem Intact.lies (intact : world.Intact) {base : Nat} (le : base ≤ world.store.frames.size) :
    (session.estate world base).Lies world.store where
  base := le
  present := intact.present
  alone := by
    rw [Session.estate, Store.chain, intact.outer]
  isSealed := intact.isSealed
  builtins _ each := intact.holdsOnly_library each

/-! ### New sessions -/

private theorem newSession_tends (intact : world.Intact) (limits : Limits) :
    world.Tends (world.newSession limits).2 (world.newSession limits).1.scope := by
  have outline := Store.outline_push world.store (world.store.chain world.library)
  refine ⟨rfl, outline ▸ List.prefix_append _ _, fun a present _ => ?_, fun a late present => ?_⟩
  · exact Store.frame_push_of_lt _ _ present
  · obtain rfl : a = (world.newSession limits).1.scope := by
      have within : a.index < world.store.frames.size + 1 := by
        simpa [World.newSession, Store.newChild, Store.push] using present
      exact congrArg Scope.mk (by omega : a.index = world.store.frames.size)
    exact estate_has_scope (intact.newSession limits).2 0

private theorem newSession_settles (intact : world.Intact) (nested : world.store.Nested)
    (limits : Limits) : (world.newSession limits).2.Settles (world.newSession limits).1 := by
  have fits := (intact.newSession limits).2
  have nested' : (world.newSession limits).2.store.Nested :=
    nested.push (.inr ⟨world.library, intact.present, rfl⟩)
  -- no scope was made later than that of the session
  have only : ∀ {a}, ((world.newSession limits).1.estate (world.newSession limits).2 0).Made
      (world.newSession limits).2.store a → a = (world.newSession limits).1.scope := by
    rintro a ⟨present, inner, walk, -⟩
    have member :
        (world.newSession limits).1.scope ∈ (world.newSession limits).2.store.chain a := by
      rw [← Store.walk_outline, walk]
      simp [Session.estate]
    have above : world.store.frames.size ≤ a.index := nested'.index_le_of_mem_chain member
    have within : a.index < world.store.frames.size + 1 := by
      simpa [World.newSession, Store.newChild, Store.push] using present
    exact congrArg Scope.mk (by omega : a.index = world.store.frames.size)
  refine ⟨0, Nat.zero_le _, by simp [World.newSession], fun a has => ?_, fun a made outside => ?_⟩
  · rw [only has.toMade]
    have pushed := Store.frame_push_self world.store (world.store.chain world.library)
    exact Frame.holdsOnly_of_empty (congrArg Frame.bindings pushed)
  · exact absurd made outside

/-! ### Resets -/

theorem reset_store (world : World) (session : Session) :
    (world.reset session).2.store = world.store.clearAll (session.captured ++ [session.scope]) := by
  simp [World.reset, Store.clearAll]

theorem Settles.reset (settles : world.Settles session) :
    (world.reset session).2.Settles (world.reset session).1 := by
  obtain ⟨base, settled⟩ := settles
  refine ⟨world.store.frames.size, ?_⟩
  rw [reset_store]
  exact settled.clear

theorem Settles.reset_tends (settles : world.Settles session) (fits : session.Fits world) :
    world.Tends (world.reset session).2 session.scope := by
  obtain ⟨base, settled⟩ := settles
  have outline := world.store.outline_clearAll (session.captured ++ [session.scope])
  refine ⟨rfl, ?_⟩
  rw [reset_store]
  refine ⟨outline ▸ List.prefix_rfl, fun a _ foreign => ?_, fun a late present => ?_⟩
  · refine world.store.frame_clearAll_of_not_mem fun member => foreign ?_
    rcases List.mem_append.mp member with noted | own
    · exact (settled.noted a noted).toMade
    · rw [List.mem_singleton.mp own]
      exact estate_has_scope fits 0
  · rw [← Store.length_outline, outline, Store.length_outline] at present
    omega

private theorem nested_reset (nested : world.store.Nested) (session : Session) :
    (world.reset session).2.store.Nested := by
  rw [reset_store]
  exact (Store.Evolves.clearAll (.refl world.store) _).nested nested

/-! ### Runs -/

theorem run_scope {fuel : Nat} {source : String} {report : Report}
    (ran : world.run fuel session source = some report) :
    report.session.scope = session.scope := by
  unfold World.run at ran
  split at ran
  · cases ran
    rfl
  split at ran
  · cases ran
    rfl
  simp only [World.runProgram] at ran
  split at ran
  · cases ran
    rfl
  · cases ran
    rfl
  · cases ran

theorem Settles.run (settles : world.Settles session) (intact : world.Intact)
    (fits : session.Fits world) (nested : world.store.Nested) {fuel : Nat} {source : String}
    {report : Report} (ran : world.run fuel session source = some report) :
    world.Tends report.world session.scope ∧ report.world.Settles report.session := by
  obtain ⟨base, settled⟩ := settles
  have lies : (session.estate world base).Lies world.store := intact.lies settled.base_le
  have started : ∀ journal, (session.estate world base).Fits world.store
      ⟨world.store.outline, session.captured⟩ (world.machine session journal) := fun journal =>
    Estate.Settled.fits (m := world.machine session journal) settled nested
      (estate_has_scope fits base)
  obtain ⟨w, -, reached⟩ := (Estate.custody_kept lies session.limits.callDepth).run started ran
  have library := (run_spares intact fits ran).1.library
  have after := settled.of_fits (reached #[])
  refine ⟨⟨library, (Estate.Fits.works (reached #[])).rebase 0⟩, base, ?_⟩
  rw [Session.estate, run_scope ran, library]
  exact after

theorem Settles.interpret (settles : world.Settles session) (intact : world.Intact)
    (fits : session.Fits world) (nested : world.store.Nested) {fuel : Nat} {source : String}
    {report : Report} (ran : world.interpret fuel session source = some report) :
    world.Tends report.world session.scope ∧ report.world.Settles report.session := by
  have ended := settles.reset.run (intact.of_spares (reset_spares fits)) (reset_fits fits)
    (nested_reset nested session) ran
  exact ⟨(settles.reset_tends fits).trans ended.1, ended.2⟩

private theorem interpret_scope {fuel : Nat} {source : String} {report : Report}
    (ran : world.interpret fuel session source = some report) :
    report.session.scope = session.scope := by
  have ran' : (world.reset session).2.run fuel (world.reset session).1 source = some report := ran
  have kept := run_scope ran'
  exact kept

end World

/-! ## Desks -/

namespace Desk

structure Orderly (desk : Desk) : Prop where
  settled : ∀ {number : Nat} {session : Session}, desk.session? number = some session →
    desk.world.Settles session
  apart : ∀ {i j : Nat} {session other : Session}, desk.session? i = some session →
    desk.session? j = some other → session.scope = other.scope → i = j

variable {desk : Desk}

private theorem orderly_empty : Desk.empty.Orderly := by
  have none : ∀ number, Desk.empty.session? number = none := fun number => by
    simp [Desk.session?, Desk.empty]
  constructor
  · intro number session found
    simp [none] at found
  · intro i j session other found
    simp [none] at found

theorem Orderly.openSession (orderly : desk.Orderly) {all : List Limits} (sound : desk.Sound all)
    (nested : desk.world.store.Nested) (limits : Limits) : (desk.openSession limits).Orderly := by
  have apart : ∀ {number session}, desk.session? number = some session →
      (desk.world.newSession limits).1.scope ≠ session.scope := by
    intro number session found same
    have present := (sound.fits found).1.present
    rw [← same] at present
    exact Nat.lt_irrefl _ present
  constructor
  · intro number session found
    rcases session?_openSession limits found with ⟨_, rfl⟩ | old
    · exact World.newSession_settles sound.intact nested limits
    · exact (orderly.settled old).elsewhere (World.newSession_tends sound.intact limits) (apart old)
  · intro i j session other found found' same
    rcases session?_openSession limits found with ⟨rfl, rfl⟩ | old
    · rcases session?_openSession limits found' with ⟨rfl, rfl⟩ | old'
      · rfl
      · exact absurd same (apart old')
    · rcases session?_openSession limits found' with ⟨rfl, rfl⟩ | old'
      · exact absurd same.symm (apart old)
      · exact orderly.apart old old' same

theorem Orderly.store (orderly : desk.Orderly) {number : Nat} {session : Session}
    (found : desk.session? number = some session) {world : World}
    (tends : desk.world.Tends world session.scope) {stored : Option Session}
    (settles : ∀ after, stored = some after →
      world.Settles after ∧ after.scope = session.scope) :
    Orderly ⟨world, desk.sessions.setIfInBounds number stored⟩ := by
  have apart : ∀ {i other}, i ≠ number → desk.session? i = some other →
      session.scope ≠ other.scope := fun differs there same =>
    differs (orderly.apart there found same.symm)
  constructor
  · intro i other there
    rcases session?_store world there with ⟨rfl, after⟩ | ⟨differs, old⟩
    · exact (settles _ after).1
    · exact (orderly.settled old).elsewhere tends (apart differs old)
  · intro i j one other there there' same
    rcases session?_store world there with ⟨rfl, after⟩ | ⟨differs, old⟩
    · rcases session?_store world there' with ⟨rfl, after'⟩ | ⟨differs', old'⟩
      · rfl
      · exact absurd ((settles _ after).2.symm.trans same) (apart differs' old')
    · rcases session?_store world there' with ⟨rfl, after'⟩ | ⟨differs', old'⟩
      · exact absurd ((settles _ after').2.symm.trans same.symm) (apart differs old)
      · exact orderly.apart old old' same

theorem Reachable.orderly {history : List Step} (reachable : Reachable history desk) :
    desk.Orderly := by
  induction reachable with
  | empty => exact orderly_empty
  | @step _ desk next fuel step diagnostic before taken ih =>
      have sound := before.sound
      have nested := (World.grounded_lasting.of_reachable before).nested
      cases step with
      | newSession limits =>
          cases taken
          exact ih.openSession sound nested limits
      | clearLines =>
          cases taken
          exact ⟨ih.settled, ih.apart⟩
      | drop number =>
          cases taken
          unfold Desk.drop
          split
          · exact ih
          · rename_i session found
            have tends := (ih.settled found).reset_tends (sound.fits found).1
            exact ih.store found tends (by simp)
      | interpret number source =>
          cases found : desk.session? number with
          | none =>
              simp only [Desk.step, Desk.interpret, found, Option.some.injEq,
                Prod.mk.injEq] at taken
              exact taken.1 ▸ ih
          | some session =>
              obtain ⟨report, ran, rfl, _⟩ := (Desk.interpret_eq_some found).mp taken
              obtain ⟨tends, settles⟩ := (ih.settled found).interpret sound.intact
                (sound.fits found).1 nested ran
              refine ih.store found tends ?_
              rintro _ ⟨⟩
              exact ⟨settles, World.interpret_scope ran⟩

end Desk

namespace World

variable {world : World} {session : Session}

theorem Hosts.nested (hosts : world.Hosts session) : world.store.Nested :=
  (grounded_lasting.of_hosts hosts).nested

theorem Hosts.settles (hosts : world.Hosts session) : world.Settles session := by
  induction hosts with
  | found reachable found => exact reachable.orderly.settled found
  | reset _ ih => exact ih.reset
  | clearLines _ ih => exact ih
  | run before ran ih => exact (ih.run before.fits.1 before.fits.2 before.nested ran).2

end World

end Ardoise
