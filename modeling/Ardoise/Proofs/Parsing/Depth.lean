import Ardoise.Proofs.Parsing.Tracking

/-!
# How deep a program can be

The depth of a program is the most expressions and bodies that enclose each
other in it.  The limit on nesting does not bound the depth itself: a chain of
operators gives its levels back once it is read, and is then pushed down by the
looser operators that follow.  With room for `k` levels every one of the eight
kinds of chain can have `k` links, one inside the other, around an array whose
elements have room for `k - 1`.  So the depth is at most quadratic in the limit.
-/

namespace Ardoise

mutual

def Expr.depth : Expr → Nat
  | .literal _ _ | .lookup _ _ => 1
  | .assign _ _ value => value.depth + 1
  | .unary _ _ operand => operand.depth + 1
  | .binary _ _ left right | .logical _ _ _ left right => max left.depth right.depth + 1
  | .call _ _ callee arguments => max callee.depth (Expr.depthAll arguments) + 1
  | .array _ elements => Expr.depthAll elements + 1
  | .index _ source position => max source.depth position.depth + 1

def Expr.depthAll : List Expr → Nat
  | [] => 0
  | e :: rest => max e.depth (Expr.depthAll rest)

end

mutual

/-- Every body counts for one level around the statements in it. -/
def Stmt.depth : Stmt → Nat
  | .expression value | .print _ value | .declare _ _ value | .give _ value => value.depth
  | .block ⟨_, body⟩ | .function _ _ _ body => Stmt.depthAll body + 1
  | .branch _ condition ⟨_, body⟩ none | .whileLoop _ condition ⟨_, body⟩ =>
      max condition.depth (Stmt.depthAll body + 1)
  | .branch _ condition ⟨_, body⟩ (some ⟨_, other⟩) =>
      max condition.depth (max (Stmt.depthAll body) (Stmt.depthAll other) + 1)
  | .countLoop _ _ first last ⟨_, body⟩ =>
      max (max first.depth last.depth) (Stmt.depthAll body + 1)

def Stmt.depthAll : List Stmt → Nat
  | [] => 0
  | s :: rest => max s.depth (Stmt.depthAll rest)

end

theorem Expr.depthAll_le {es : List Expr} {d : Nat} (h : ∀ e ∈ es, e.depth ≤ d) :
    Expr.depthAll es ≤ d := by
  induction es with
  | nil => exact Nat.zero_le d
  | cons e rest ih =>
      simp only [List.forall_mem_cons] at h
      exact Nat.max_le.mpr ⟨h.1, ih h.2⟩

theorem Stmt.depthAll_le {ss : List Stmt} {d : Nat} (h : ∀ s ∈ ss, s.depth ≤ d) :
    Stmt.depthAll ss ≤ d := by
  induction ss with
  | nil => exact Nat.zero_le d
  | cons s rest ih =>
      simp only [List.forall_mem_cons] at h
      exact Nat.max_le.mpr ⟨h.1, ih h.2⟩

@[simp] theorem Expr.depth_widen (span : Span) (e : Expr) : (e.widen span).depth = e.depth := by
  cases e <;> simp [Expr.widen, Expr.depth]

@[simp] theorem Operator.depth_join (op : Operator) (token : Token) (left right : Expr) :
    (op.join token left right).depth = max left.depth right.depth + 1 := by
  cases op <;> simp [Operator.join, Expr.depth]

/-! ## Expressions -/

def coreDepth : Nat → Nat
  | 0 => 1
  | room + 1 => coreDepth room + 7 * room + 1

theorem coreDepth_pos (room : Nat) : 0 < coreDepth room := by
  cases room <;> simp [coreDepth]

theorem coreDepth_le_succ (room : Nat) : coreDepth room ≤ coreDepth (room + 1) := by
  simp only [coreDepth]
  omega

/-- Twice the sum of the first `room` numbers of which each is seven more than the last. -/
theorem two_mul_coreDepth (room : Nat) :
    2 * coreDepth room + 5 * room = 7 * (room * room) + 2 := by
  induction room with
  | zero => rfl
  | succ room ih =>
      simp only [coreDepth, Nat.add_mul, Nat.mul_add]
      omega

/-- What a rule makes of the room it has: a chain adds at most a level for each of its links. -/
def Rule.Allows (room depth : Nat) : Rule → Prop
  | .primary => depth ≤ coreDepth room
  | .suffixes left => ∀ d, left.depth ≤ d → coreDepth room ≤ d → depth ≤ d + room
  | .operand => depth ≤ coreDepth room + room
  | .operators levels => depth ≤ coreDepth room + room + levels.length * room
  | .operations _ tighter left =>
      ∀ d, left.depth ≤ d → coreDepth room + room + tighter.length * room ≤ d → depth ≤ d + room
  | .assignment => depth ≤ coreDepth room + 7 * room
  | .expression => depth + 1 ≤ coreDepth room

theorem exists_room {limit n room : Nat} (roomy : n < limit) (left : n + room = limit) :
    ∃ less, room = less + 1 ∧ n + 1 + less = limit :=
  ⟨room - 1, by omega, by omega⟩

theorem Derives.allows {limit : Nat} {rule : Rule} {n : Nat} {e : Expr} {ts : List Token}
    (h : Derives limit rule n e ts) {room : Nat} (left : n + room = limit) :
    rule.Allows room e.depth := by
  induction h generalizing room with
  | literal | name =>
      simp only [Rule.Allows, Expr.depth]
      exact coreDepth_pos room
  | parenthesised opens inner closes ih =>
      have inside := ih left
      simp only [Rule.Allows, Expr.depth_widen] at inside ⊢
      omega
  | @array n elements opening close ts opens each joined closes ih =>
      have inside : Expr.depthAll (elements.map Prod.fst) ≤ coreDepth room - 1 := by
        refine Expr.depthAll_le (List.forall_mem_map.mpr fun element member => ?_)
        have below := ih element member left
        simp only [Rule.Allows] at below
        omega
      have positive := coreDepth_pos room
      simp only [Rule.Allows, Expr.depth]
      omega
  | bare e =>
      intro d below _
      omega
  | @call n callee e arguments opening close ts us roomy opens each joined closes rest ih ih' =>
      obtain ⟨room, rfl, deeper⟩ := exists_room roomy left
      intro d below enough
      have less := coreDepth_le_succ room
      have inside : Expr.depthAll (arguments.map Prod.fst) ≤ d := by
        refine Expr.depthAll_le (List.forall_mem_map.mpr fun argument member => ?_)
        have shallow := ih argument member deeper
        simp only [Rule.Allows] at shallow
        omega
      have further := ih' deeper (d + 1)
        (by simp only [Expr.depth]; omega) (by omega)
      omega
  | @index n source position e opening close ts us roomy opens inner closes rest ih ih' =>
      obtain ⟨room, rfl, deeper⟩ := exists_room roomy left
      intro d below enough
      have less := coreDepth_le_succ room
      have inside := ih deeper
      simp only [Rule.Allows] at inside
      have further := ih' deeper (d + 1)
        (by simp only [Expr.depth]; omega) (by omega)
      omega
  | postfixed primary rest ih ih' =>
      have first := ih left
      simp only [Rule.Allows] at first
      exact ih' left _ first (Nat.le_refl _)
  | @prefixed n token e ts roomy sign operand ih =>
      obtain ⟨room, rfl, deeper⟩ := exists_room roomy left
      have less := coreDepth_le_succ room
      have inside := ih deeper
      simp only [Rule.Allows, Expr.depth] at inside ⊢
      omega
  | plain operand ih =>
      have same := ih left
      simp only [Rule.Allows, List.length_nil, Nat.zero_mul] at same ⊢
      exact same
  | level operand rest ih ih' =>
      have first := ih left
      have chain := ih' left _ first (Nat.le_refl _)
      simp only [Rule.Allows, List.length_cons, Nat.add_mul] at chain ⊢
      omega
  | done e =>
      intro d below _
      omega
  | @apply n level tighter op token first right e ts us roomy operator operand rest ih ih' =>
      obtain ⟨room, rfl, deeper⟩ := exists_room roomy left
      intro d below enough
      have less := coreDepth_le_succ room
      have inside := ih deeper
      simp only [Rule.Allows, Nat.mul_add] at inside enough
      have further := ih' deeper (d + 1)
        (by rw [Operator.depth_join]; omega) (by omega)
      omega
  | @assign n span target value equals ts us roomy first sign assigned ih ih' =>
      obtain ⟨room, rfl, deeper⟩ := exists_room roomy left
      have less := coreDepth_le_succ room
      have inside := ih' deeper
      simp only [Rule.Allows, Expr.depth] at inside ⊢
      omega
  | unassigned operators ih =>
      have same := ih left
      simp only [Rule.Allows, Level.all, List.length_cons, List.length_nil] at same ⊢
      omega
  | @nested n e ts roomy inner ih =>
      obtain ⟨room, rfl, deeper⟩ := exists_room roomy left
      have inside := ih deeper
      simp only [Rule.Allows, coreDepth] at inside ⊢
      omega

/-! ## Statements -/

def loopDepth (room : Nat) : Nat :=
  coreDepth room + 3 * room

private theorem loopDepth_lt_succ (room : Nat) : loopDepth room < loopDepth (room + 1) := by
  have less := coreDepth_le_succ room
  simp only [loopDepth]
  omega

theorem Derives.depth_lt_loopDepth {limit n room : Nat} {e : Expr} {ts : List Token}
    (h : Derives limit .expression n e ts) (left : n + room = limit) :
    e.depth < loopDepth room := by
  have below := h.allows left
  simp only [Rule.Allows] at below
  simp only [loopDepth]
  omega

theorem Derives.depth_le_loopDepth {limit n room : Nat} {e : Expr} {ts : List Token}
    (h : Derives limit (.operators Level.arithmetic) n e ts) (left : n + room = limit) :
    e.depth ≤ loopDepth room := by
  have below := h.allows left
  simp only [Rule.Allows, Level.arithmetic, List.length_cons, List.length_nil] at below
  simp only [loopDepth]
  omega

theorem depth_body_lt {limit n room : Nat} {body : List (Stmt × List Token)} (roomy : n < limit)
    (left : n + room = limit)
    (h : ∀ s ∈ body, ∀ {room : Nat}, n + 1 + room = limit → s.1.depth ≤ loopDepth room) :
    Stmt.depthAll (body.map Prod.fst) < loopDepth room := by
  obtain ⟨room, rfl, deeper⟩ := exists_room roomy left
  have inside : Stmt.depthAll (body.map Prod.fst) ≤ loopDepth room :=
    Stmt.depthAll_le (List.forall_mem_map.mpr fun s member => h s member deeper)
  exact Nat.lt_of_le_of_lt inside (loopDepth_lt_succ room)

theorem StmtDerives.depth_le {limit : Nat} {f : Bool} {n : Nat} {s : Stmt} {ts : List Token}
    (h : StmtDerives limit f n s ts) {room : Nat} (left : n + room = limit) :
    s.depth ≤ loopDepth room := by
  induction h generalizing room with
  | give _ inner | declare _ _ _ inner | print _ inner | expression inner =>
      exact Nat.le_of_lt (inner.depth_lt_loopDepth left)
  | function roomy _ _ _ _ _ _ _ _ ih => exact depth_body_lt roomy left ih
  | block roomy _ _ _ ih => exact depth_body_lt roomy left ih
  | branch roomy _ tested _ _ _ ih | whileLoop roomy _ tested _ _ _ ih =>
      have condition := tested.depth_lt_loopDepth left
      exact Nat.max_le.mpr ⟨Nat.le_of_lt condition, depth_body_lt roomy left ih⟩
  | branchOtherwise roomy _ tested _ _ _ _ _ ih ih' =>
      have condition := tested.depth_lt_loopDepth left
      have body := depth_body_lt roomy left ih
      have other := depth_body_lt roomy left ih'
      exact Nat.max_le.mpr ⟨Nat.le_of_lt condition, Nat.max_lt.mpr ⟨body, other⟩⟩
  | countLoop roomy _ _ _ lower _ upper _ _ ih =>
      have first := lower.depth_le_loopDepth left
      have last := upper.depth_le_loopDepth left
      exact Nat.max_le.mpr ⟨Nat.max_le.mpr ⟨first, last⟩, depth_body_lt roomy left ih⟩

/-- The product gives its level back, and the sum then encloses it. -/
theorem parse_deeper_than_limit :
    (scan "1*1+1").toOption.bind (fun tokens => (parse 2 tokens).toOption.map Stmt.depthAll) =
      some 3 := by
  decide +kernel

/--
A program nested at most `limit` levels is at most `1 + limit * (7 * limit + 1) / 2`
deep.
-/
theorem two_mul_depth_le_of_parse {limit : Nat} {tokens : List Token} {program : Program}
    (parsed : parse limit tokens = .ok program) :
    2 * Stmt.depthAll program ≤ 7 * (limit * limit) + limit + 2 := by
  obtain ⟨used, rest, _, _, pieces, rfl, each, _⟩ := sequenced_of_parse parsed
  have below : Stmt.depthAll (pieces.map Prod.fst) ≤ loopDepth limit := by
    refine Stmt.depthAll_le (List.forall_mem_map.mpr fun piece member => ?_)
    exact (each piece member).depth_le (Nat.zero_add limit)
  have closed := two_mul_coreDepth limit
  simp only [loopDepth] at below
  omega

/-- With a limit of one level, a bound of a loop can be five deep, and no more. -/
theorem two_mul_depth_le_of_parse_reached :
    ∃ tokens program, scan "pour i entre [x]()*a+b et 1 fin" = .ok tokens ∧
      parse 1 tokens = .ok program ∧ Stmt.depthAll program = 5 ∧
      2 * Stmt.depthAll program ≤ 7 * (1 * 1) + 1 + 2 := by
  have read : (scan "pour i entre [x]()*a+b et 1 fin").toOption.bind (fun tokens =>
      (parse 1 tokens).toOption.map Stmt.depthAll) = some 5 := by decide +kernel
  cases scanned : scan "pour i entre [x]()*a+b et 1 fin" with
  | error fault =>
      rw [scanned] at read
      cases read
  | ok tokens =>
      rw [scanned] at read
      change (parse 1 tokens).toOption.map Stmt.depthAll = some 5 at read
      cases parsed : parse 1 tokens with
      | error fault =>
          rw [parsed] at read
          cases read
      | ok program =>
          rw [parsed] at read
          exact ⟨tokens, program, rfl, parsed, Option.some.inj read,
            two_mul_depth_le_of_parse parsed⟩

end Ardoise
