import Ardoise.Proofs.Listings.Nodes
import Ardoise.Proofs.Parsing.Parts
import Ardoise.Proofs.Sessions.Endings

/-!
# The listing of a program tells what it is

A program that was parsed is legible but for some of its literals: its names are words
that are no keywords, its operators are spelled as their keywords are, and its numbers
are numbers.  Where its texts hold no double quote and its numbers are not infinite,
no other program has the same listing, up to where things stand and to the case of
the letters of logical operators.
-/

namespace Ardoise

/-! ## Literals -/

mutual

def Expr.literals : Expr → List Literal
  | .literal _ value => [value]
  | .lookup _ _ => []
  | .assign _ _ e | .unary _ _ e => e.literals
  | .binary _ _ left right | .logical _ _ _ left right | .index _ left right =>
      left.literals ++ right.literals
  | .call _ _ callee arguments => callee.literals ++ Expr.literalsAll arguments
  | .array _ elements => Expr.literalsAll elements

def Expr.literalsAll : List Expr → List Literal
  | [] => []
  | e :: rest => e.literals ++ Expr.literalsAll rest

end

mutual

def Stmt.literals : Stmt → List Literal
  | .expression e | .print _ e | .declare _ _ e | .give _ e => e.literals
  | .block ⟨_, body⟩ | .function _ _ _ body => Stmt.literalsAll body
  | .branch _ e ⟨_, body⟩ none | .whileLoop _ e ⟨_, body⟩ => e.literals ++ Stmt.literalsAll body
  | .branch _ e ⟨_, body⟩ (some ⟨_, other⟩) =>
      e.literals ++ (Stmt.literalsAll body ++ Stmt.literalsAll other)
  | .countLoop _ _ first last ⟨_, body⟩ =>
      first.literals ++ (last.literals ++ Stmt.literalsAll body)

def Stmt.literalsAll : List Stmt → List Literal
  | [] => []
  | s :: rest => s.literals ++ Stmt.literalsAll rest

end

theorem Expr.literals_subset_all {e : Expr} {es : List Expr} (member : e ∈ es) :
    e.literals ⊆ literalsAll es := by
  induction member with
  | head => exact List.subset_append_left _ _
  | tail _ _ ih => exact List.subset_append_of_subset_right _ ih

theorem Stmt.literals_subset_all {s : Stmt} {ss : List Stmt} (member : s ∈ ss) :
    s.literals ⊆ literalsAll ss := by
  induction member with
  | head => exact List.subset_append_left _ _
  | tail _ _ ih => exact List.subset_append_of_subset_right _ ih

theorem Expr.literals_subset_of_part {e part : Expr} (member : part ∈ e.parts) :
    part.literals ⊆ e.literals := by
  cases e with
  | literal | lookup => cases member
  | assign | unary =>
      cases List.mem_singleton.mp member
      exact fun _ inside => inside
  | binary | logical | index =>
      rcases List.mem_pair.mp member with rfl | rfl
      · exact List.subset_append_left _ _
      · exact List.subset_append_right _ _
  | call =>
      rcases List.mem_cons.mp member with rfl | argument
      · exact List.subset_append_left _ _
      · exact List.subset_append_of_subset_right _ (literals_subset_all argument)
  | array => exact literals_subset_all member

theorem Stmt.literals_subset_of_part {s part : Stmt} (member : part ∈ s.parts) :
    part.literals ⊆ s.literals := by
  cases s with
  | expression | print | declare | give => cases member
  | block | function => exact literals_subset_all member
  | branch _ _ _ other =>
      cases other with
      | none => exact List.subset_append_of_subset_right _ (literals_subset_all member)
      | some =>
          refine List.subset_append_of_subset_right _ ?_
          rcases List.mem_append.mp member with first | second
          · exact List.subset_append_of_subset_left _ (literals_subset_all first)
          · exact List.subset_append_of_subset_right _ (literals_subset_all second)
  | whileLoop => exact List.subset_append_of_subset_right _ (literals_subset_all member)
  | countLoop =>
      exact List.subset_append_of_subset_right _
        (List.subset_append_of_subset_right _ (literals_subset_all member))

private theorem Stmt.literals_subset_of_expression {s : Stmt} {e : Expr} (own : e ∈ s.expressions) :
    e.literals ⊆ s.literals := by
  cases s with
  | block | function => cases own
  | expression | print | declare | give =>
      cases List.mem_singleton.mp own
      exact fun _ inside => inside
  | branch _ _ _ other =>
      cases List.mem_singleton.mp own
      cases other <;> exact List.subset_append_left _ _
  | whileLoop =>
      cases List.mem_singleton.mp own
      exact List.subset_append_left _ _
  | countLoop =>
      rcases List.mem_pair.mp own with rfl | rfl
      · exact List.subset_append_left _ _
      · exact List.subset_append_of_subset_right _ (List.subset_append_left _ _)

/-- Not an infinite number, and not a text with a double quote in it. -/
def Literal.Plain : Literal → Prop
  | number value => ∀ negative, Number.form value ≠ .infinite negative
  | text content => '"' ∉ content.toList
  | boolean _ | null => True

instance Literal.decidablePlain : (value : Literal) → Decidable value.Plain
  | number value => inferInstanceAs (Decidable (∀ negative, Number.form value ≠ .infinite negative))
  | text content => inferInstanceAs (Decidable ('"' ∉ content.toList))
  | boolean _ | null => inferInstanceAs (Decidable True)

/-! ## What is read is legible -/

section

variable {source : String} {tokens : List Token}

theorem Name.legible_of_scan (scanned : scan source = .ok tokens) {token : Token}
    (member : token ∈ tokens) {name : Name} (kind : token.kind = .identifier name.text) :
    name.Legible := by
  have lexeme := lexeme_of_scan scanned member (by rw [kind]; exact Kind.noConfusion)
  generalize token.lexeme.toList = word at lexeme
  generalize token.kind = shown at lexeme kind
  cases lexeme with
  | identifier isWord free =>
      have text : name.text.toList = word := by
        rw [← Kind.identifier.inj kind, String.toList_ofList]
      exact ⟨text ▸ isWord, text ▸ free⟩
  | _ => cases kind

/-- Digits are read as a number, be it finite or infinite. -/
theorem form_ne_nan_of_scan (scanned : scan source = .ok tokens) {token : Token}
    (member : token ∈ tokens) {value : Float} (kind : token.kind = .number value) :
    Number.form value ≠ .nan := by
  have lexeme := lexeme_of_scan scanned member (by rw [kind]; exact Kind.noConfusion)
  generalize token.lexeme.toList = digits at lexeme
  generalize token.kind = shown at lexeme kind
  cases lexeme with
  | whole isDigits =>
      cases kind
      exact Number.form_numberValue_ne_nan _ _
  | decimal isDigits isDigits' =>
      cases kind
      exact Number.form_numberValue_ne_nan _ _
  | _ => cases kind

theorem Literal.legible_of_scan (scanned : scan source = .ok tokens) {token : Token}
    (member : token ∈ tokens) {value : Literal} (kind : Parser.literal? token.kind = some value)
    (plain : value.Plain) : value.Legible := by
  cases value with
  | number x =>
      have number : token.kind = .number x := by
        unfold Parser.literal? at kind
        split at kind <;> cases kind
        assumption
      cases form : Number.form x with
      | nan => exact absurd form (form_ne_nan_of_scan scanned member number)
      | infinite negative => exact absurd form (plain negative)
      | finite negative mantissa exponent => exact ⟨negative, mantissa, exponent, form⟩
  | text content => exact plain
  | boolean | null => trivial

private theorem warranted_legible (scanned : scan source = .ok tokens) :
    Warranted tokens fun e => (∀ value ∈ e.literals, value.Plain) → e.Legible where
  literal token member value kind plain :=
    Literal.legible_of_scan scanned member kind (plain value (List.mem_singleton_self value))
  name token member text kind _ := Name.legible_of_scan scanned member kind
  assign span target name _ _ _ := name (List.forall_mem_nil _)
  unary _ _ sign _ _ _ := sign
  join token member level op operator left right := by
    cases op with
    | binary => exact fun _ => (Level.operator?_eq_binary.mp operator).1
    | logical =>
        have logical := (Level.operator?_eq_logical.mp operator).1
        refine fun _ => ⟨logical, ?_⟩
        cases kind : token.kind with
        | keyword word =>
            have spelled := isSpelled_of_scan scanned member kind
            rwa [Keyword.isSpelled_iff, String.ofList_toList] at spelled
        | symbol | identifier | number | text | endOfInput =>
            rw [kind] at logical
            cases logical
  call _ _ _ _ _ := trivial
  array _ _ _ := trivial
  index _ _ _ _ := trivial
  widen e span h := by cases e <;> exact h

end

theorem Stmt.ReadFrom.legible {source : String} {tokens : List Token}
    (scanned : scan source = .ok tokens) {limit : Nat} {s : Stmt}
    (h : s.ReadFrom limit tokens) : s.Legible := by
  obtain ⟨f, n, ts, inside, derives⟩ := h
  have named : ∀ {name : Name} {own : List Token}, name.IsAt own → own <:+: ts → name.Legible := by
    rintro name own ⟨token, rfl, kind, _⟩ part
    exact Name.legible_of_scan scanned
      ((part.trans inside).subset (List.mem_singleton_self token)) kind
  cases derives with
  | give | branch | branchOtherwise | whileLoop | print | block | expression => trivial
  | @declare _ _ name _ keyword equals own ts' _ isAt _ _ =>
      exact named isAt ⟨[keyword], equals :: ts', by simp⟩
  | @countLoop _ _ counter _ _ body _ keyword between conjunction last own us us' leading _ _
      isAt =>
      exact named isAt ⟨[keyword], between :: us ++ conjunction :: us' ++ leading ++
        (body.map Prod.snd).flatten ++ [last], by simp⟩
  | @function _ _ name parameters body keyword opening close last own us _ _ isAt _ names joined =>
      refine ⟨named isAt ⟨[keyword], opening :: us ++ close :: (body.map Prod.snd).flatten ++
        [last], by simp⟩, List.forall_mem_map.mpr fun parameter member => ?_⟩
      have part := joined.infix _ (List.mem_map_of_mem (f := Prod.snd) member)
      exact named (names parameter member) (part.trans
        ⟨keyword :: own ++ [opening], close :: (body.map Prod.snd).flatten ++ [last], by simp⟩)

def Stmt.PlainlyRead (limit : Nat) (tokens : List Token) (s : Stmt) : Prop :=
  s.ReadFrom limit tokens ∧ ∀ value ∈ s.literals, value.Plain

def Expr.PlainlyRead (e : Expr) : Prop :=
  e.Everywhere (fun part => (∀ value ∈ part.literals, value.Plain) → part.Legible) ∧
    ∀ value ∈ e.literals, value.Plain

/-- What is read from scanned tokens is legible, if its literals are plain. -/
theorem legibleCode_of_scan {source : String} {tokens : List Token}
    (scanned : scan source = .ok tokens) (limit : Nat) :
    LegibleCode (·.PlainlyRead limit tokens) Expr.PlainlyRead where
  closed s h part member := ⟨Stmt.closed_readFrom limit tokens s h.1 part member,
    fun value inside => h.2 value (Stmt.literals_subset_of_part member inside)⟩
  expressions _ h e own := ⟨h.1.everywhere (warranted_legible scanned) e own,
    fun value inside => h.2 value (Stmt.literals_subset_of_expression own inside)⟩
  operands _ h _ member := ⟨h.1.inside member,
    fun value inside => h.2 value (Expr.literals_subset_of_part member inside)⟩
  statement _ h := h.1.legible scanned
  expression _ h := h.1.here h.2

theorem plainlyRead_of_parse {tokens : List Token} {limit : Nat} {program : Program}
    (parsed : parse limit tokens = .ok program)
    (plain : ∀ value ∈ Stmt.literalsAll program, value.Plain) :
    ∀ s ∈ program, s.PlainlyRead limit tokens := by
  obtain ⟨used, rest, rfl, _, reads⟩ := readFrom_of_parse parsed
  intro s member
  refine ⟨(reads s (Stmt.partOf_of_mem member)).mono (List.prefix_append used rest).isInfix, ?_⟩
  exact fun value inside => plain value (Stmt.literals_subset_all member inside)

/-- Programs with the same listing are the same, up to spans and the case of operators. -/
theorem Program.unplaced_eq_of_listing_eq {source source' : String}
    {tokens tokens' : List Token} {limit limit' : Nat} {program program' : Program}
    (scanned : scan source = .ok tokens) (parsed : parse limit tokens = .ok program)
    (scanned' : scan source' = .ok tokens') (parsed' : parse limit' tokens' = .ok program')
    (plain : ∀ value ∈ Stmt.literalsAll program, value.Plain)
    (plain' : ∀ value ∈ Stmt.literalsAll program', value.Plain)
    (same : Program.listing program = Program.listing program') :
    Stmt.blurAll (.unplaced String.toLower) program =
      Stmt.blurAll (.unplaced String.toLower) program' := by
  have code := legibleCode_of_scan scanned limit
  have code' := legibleCode_of_scan scanned' limit'
  have whole := plainlyRead_of_parse parsed plain
  have whole' := plainlyRead_of_parse parsed' plain'
  have lines : Sexp.lines (Stmt.sexps program) = Sexp.lines (Stmt.sexps program') := by
    rw [← Program.toList_listing, ← Program.toList_listing, same]
  exact Stmt.blurAll_eq_of_sexps code code' program program' whole whole'
    (Sexp.lines_inj (Stmt.proper_sexps code program whole)
      (Stmt.proper_sexps code' program' whole') lines)

/-- A parenthesis in a text, a zero too many, an operator in capitals and other keywords. -/
theorem Program.unplaced_eq_of_listing_eq_spellings :
    let source := "si x ET vrai alors f('a (', 1.50)[0] sinon \x7b\x7d fin"
    let source' := "// \"\nif x et true then f(\"a (\", 1.5)[0.0] else \x7b\x7d end"
    let listing := "(if (et x true) (block (index (call f \"a (\" 1.5) 0)) (block (block)))"
    ∃ tokens tokens' program program', scan source = .ok tokens ∧ scan source' = .ok tokens' ∧
      parse 256 tokens = .ok program ∧ parse 256 tokens' = .ok program' ∧
      Program.listing program = listing ∧ Program.listing program' = listing ∧
      Stmt.blurAll (.unplaced String.toLower) program =
        Stmt.blurAll (.unplaced String.toLower) program' := by
  intro source source' listing
  have read : ∀ text ∈ [source, source'], ((scan text).toOption.bind fun tokens =>
      (parse 256 tokens).toOption.map fun program => (Program.listing program,
        decide (∀ value ∈ Stmt.literalsAll program, value.Plain))) = some (listing, true) := by
    decide +kernel
  have all : ∀ text ∈ [source, source'], ∃ tokens program, scan text = .ok tokens ∧
      parse 256 tokens = .ok program ∧ Program.listing program = listing ∧
      ∀ value ∈ Stmt.literalsAll program, value.Plain := by
    intro text member
    obtain ⟨tokens, scanned, rest⟩ := Option.bind_eq_some_iff.mp (read text member)
    obtain ⟨program, parsed, shown⟩ := Option.map_eq_some_iff.mp rest
    obtain ⟨listed, plain⟩ := Prod.mk.inj shown
    exact ⟨tokens, program, eq_ok_of_toOption scanned, eq_ok_of_toOption parsed, listed,
      of_decide_eq_true plain⟩
  obtain ⟨tokens, program, scanned, parsed, listed, plain⟩ := all source List.mem_cons_self
  obtain ⟨tokens', program', scanned', parsed', listed', plain'⟩ :=
    all source' (List.mem_cons_of_mem _ List.mem_cons_self)
  exact ⟨tokens, tokens', program, program', scanned, scanned', parsed, parsed', listed, listed',
    Program.unplaced_eq_of_listing_eq scanned parsed scanned' parsed' plain plain'
      (listed.trans listed'.symm)⟩

end Ardoise
