import Mathlib.Data.List.Basic
import Mathlib.Tactic.Common

/-!
# Reading listings

A listing is made of words, of quoted texts, and of parenthesised lists of these
with a space between one and the next.  Nothing in it is escaped.  Still it can be
read in one way only, as long as words hold none of the characters that the notation
is made of, and quoted texts hold no quote: where an item ends is decided by the
item itself, and by the space or the parenthesis behind it.
-/

namespace Ardoise

inductive Sexp where
  | word (text : List Char)
  | quoted (content : List Char)
  | list (items : List Sexp)

namespace Sexp

mutual

def text : Sexp → List Char
  | word text => text
  | quoted content => '"' :: content ++ ['"']
  | list items => '(' :: textInside items ++ [')']

def textInside : List Sexp → List Char
  | [] => []
  | item :: rest => item.text ++ textAfter rest

def textAfter : List Sexp → List Char
  | [] => []
  | item :: rest => ' ' :: item.text ++ textAfter rest

end

def delimiters : List Char := [' ', '\n', '(', ')', '"']

inductive Proper : Sexp → Prop
  | word {text : List Char} (filled : text ≠ []) (plain : ∀ c ∈ text, c ∉ delimiters) :
      Proper (.word text)
  | quoted {content : List Char} (closed : '"' ∉ content) : Proper (.quoted content)
  | list {items : List Sexp} (each : ∀ item ∈ items, Proper item) : Proper (.list items)

/-- What comes behind an item: nothing, or a character that cannot belong to it. -/
def Behind (rest : List Char) : Prop :=
  ∀ c more, rest = c :: more → c ∈ [' ', '\n', ')']

theorem behind_cons {c : Char} (member : c ∈ [' ', '\n', ')']) (more : List Char) :
    Behind (c :: more) := by
  rintro d others ⟨⟩
  exact member

theorem behind_textAfter (items : List Sexp) (rest : List Char) :
    Behind (textAfter items ++ ')' :: rest) := by
  cases items with
  | nil => exact behind_cons (by decide) rest
  | cons item others => exact behind_cons (by decide) _

theorem append_inj_of_stop {p : Char → Prop} {xs ys rest rest' : List Char}
    (each : ∀ c ∈ xs, p c) (each' : ∀ c ∈ ys, p c)
    (stop : ∀ c more, rest = c :: more → ¬ p c) (stop' : ∀ c more, rest' = c :: more → ¬ p c)
    (same : xs ++ rest = ys ++ rest') : xs = ys ∧ rest = rest' := by
  induction xs generalizing ys with
  | nil =>
      cases ys with
      | nil => exact ⟨rfl, same⟩
      | cons d ys => exact absurd (each' d (by simp)) (stop d _ same)
  | cons c xs ih =>
      cases ys with
      | nil => exact absurd (each c (by simp)) (stop' c _ same.symm)
      | cons d ys =>
          simp only [List.cons_append, List.cons.injEq] at same
          obtain ⟨rfl, same⟩ := same
          have tails := ih (fun c member => each c (by simp [member]))
            (fun c member => each' c (by simp [member])) same
          exact ⟨congrArg _ tails.1, tails.2⟩

theorem Proper.exists_cons {item : Sexp} (h : item.Proper) (rest : List Char) :
    ∃ c more, item.text ++ rest = c :: more ∧ c ∉ [' ', '\n', ')'] := by
  cases h with
  | @word text filled plain =>
      cases text with
      | nil => exact absurd rfl filled
      | cons c more =>
          refine ⟨c, more ++ rest, rfl, fun member => plain c (by simp) ?_⟩
          simp only [delimiters, List.mem_cons, List.not_mem_nil, or_false] at member ⊢
          tauto
  | quoted closed => exact ⟨'"', _, rfl, by decide⟩
  | list each => exact ⟨'(', _, rfl, by decide⟩

theorem word_ne {text rest rest' : List Char} {c : Char} (filled : text ≠ [])
    (plain : ∀ c ∈ text, c ∉ delimiters) (special : c ∈ delimiters) :
    text ++ rest ≠ c :: rest' := by
  cases text with
  | nil => exact absurd rfl filled
  | cons d more =>
      rintro ⟨⟩
      exact plain c (by simp) special

mutual

/-- Where two items are read from the same characters, they are the same item. -/
theorem text_inj : (a b : Sexp) → a.Proper → b.Proper → ∀ {rest rest' : List Char},
    Behind rest → Behind rest' → a.text ++ rest = b.text ++ rest' → a = b ∧ rest = rest'
  | .word text, .word text', .word _ plain, .word _ plain', _, _, behind, behind', same => by
      have stop : ∀ {rest : List Char}, Behind rest → ∀ c more, rest = c :: more →
          ¬ c ∉ delimiters := by
        intro rest behind c more start apart
        have member := behind c more start
        simp only [delimiters, List.mem_cons, List.not_mem_nil, or_false] at member apart
        tauto
      obtain ⟨rfl, ends⟩ := append_inj_of_stop plain plain' (stop behind) (stop behind') same
      exact ⟨rfl, ends⟩
  | .quoted content, .quoted content', .quoted closed, .quoted closed', _, _, _, _, same => by
      simp only [Sexp.text, List.cons_append, List.append_assoc, List.cons.injEq, true_and,
        List.nil_append] at same
      have stop : ∀ (rest : List Char) c more, '"' :: rest = c :: more → ¬ c ≠ '"' := by
        rintro rest c more ⟨⟩ apart
        exact apart rfl
      obtain ⟨rfl, ends⟩ := append_inj_of_stop (p := (· ≠ '"'))
        (fun c member quote => closed (quote ▸ member))
        (fun c member quote => closed' (quote ▸ member)) (stop _) (stop _) same
      exact ⟨rfl, List.tail_eq_of_cons_eq ends⟩
  | .list [], .list [], _, _, _, _, _, _, same => by
      exact ⟨rfl, by simpa [Sexp.text, textInside] using same⟩
  | .list [], .list (b :: bs), _, .list each', _, rest', _, _, same => by
      obtain ⟨c, more, starts, apart⟩ :=
        (each' b (by simp)).exists_cons (textAfter bs ++ ')' :: rest')
      simp only [Sexp.text, textInside, List.cons_append, List.append_assoc, List.cons.injEq,
        true_and, List.nil_append] at same
      rw [starts, List.cons.injEq] at same
      exact absurd (same.1 ▸ by simp) apart
  | .list (a :: as), .list [], .list each, _, rest, _, _, _, same => by
      obtain ⟨c, more, starts, apart⟩ :=
        (each a (by simp)).exists_cons (textAfter as ++ ')' :: rest)
      simp only [Sexp.text, textInside, List.cons_append, List.append_assoc, List.cons.injEq,
        true_and, List.nil_append] at same
      rw [starts, List.cons.injEq] at same
      exact absurd (same.1 ▸ by simp) apart
  | .list (a :: as), .list (b :: bs), .list each, .list each', _, _, _, _, same => by
      simp only [Sexp.text, textInside, List.cons_append, List.append_assoc, List.cons.injEq,
        true_and, List.nil_append] at same
      obtain ⟨rfl, others⟩ := text_inj a b (each a (by simp)) (each' b (by simp))
        (behind_textAfter as _) (behind_textAfter bs _) same
      obtain ⟨rfl, ends⟩ := textAfter_inj as bs (fun item member => each item (by simp [member]))
        (fun item member => each' item (by simp [member])) others
      exact ⟨rfl, ends⟩
  | .word _, .quoted _, .word filled plain, _, _, _, _, _, same =>
      absurd same (word_ne filled plain (by decide))
  | .word _, .list _, .word filled plain, _, _, _, _, _, same =>
      absurd same (word_ne filled plain (by decide))
  | .quoted _, .word _, _, .word filled plain, _, _, _, _, same =>
      absurd same.symm (word_ne filled plain (by decide))
  | .list _, .word _, _, .word filled plain, _, _, _, _, same =>
      absurd same.symm (word_ne filled plain (by decide))
  | .quoted _, .list _, _, _, _, _, _, _, same => by
      simp [Sexp.text] at same
  | .list _, .quoted _, _, _, _, _, _, _, same => by
      simp [Sexp.text] at same

theorem textAfter_inj : (as bs : List Sexp) → (∀ item ∈ as, item.Proper) →
    (∀ item ∈ bs, item.Proper) → ∀ {rest rest' : List Char},
    textAfter as ++ ')' :: rest = textAfter bs ++ ')' :: rest' → as = bs ∧ rest = rest'
  | [], [], _, _, _, _, same => ⟨rfl, List.tail_eq_of_cons_eq same⟩
  | [], b :: bs, _, _, _, _, same => by simp [textAfter] at same
  | a :: as, [], _, _, _, _, same => by simp [textAfter] at same
  | a :: as, b :: bs, each, each', _, _, same => by
      simp only [textAfter, List.cons_append, List.append_assoc, List.cons.injEq, true_and] at same
      obtain ⟨rfl, others⟩ := text_inj a b (each a (by simp)) (each' b (by simp))
        (behind_textAfter as _) (behind_textAfter bs _) same
      obtain ⟨rfl, ends⟩ := textAfter_inj as bs (fun item member => each item (by simp [member]))
        (fun item member => each' item (by simp [member])) others
      exact ⟨rfl, ends⟩

end

/-! ## Lines -/

def linesAfter : List Sexp → List Char
  | [] => []
  | item :: rest => '\n' :: item.text ++ linesAfter rest

def lines : List Sexp → List Char
  | [] => []
  | item :: rest => item.text ++ linesAfter rest

theorem behind_linesAfter (items : List Sexp) : Behind (linesAfter items) := by
  cases items with
  | nil => rintro c more ⟨⟩
  | cons item others => exact behind_cons (by decide) _

private theorem linesAfter_inj {as bs : List Sexp} (each : ∀ item ∈ as, item.Proper)
    (each' : ∀ item ∈ bs, item.Proper) (same : linesAfter as = linesAfter bs) : as = bs := by
  induction as generalizing bs with
  | nil =>
      cases bs with
      | nil => rfl
      | cons b bs => cases same
  | cons a as ih =>
      cases bs with
      | nil => cases same
      | cons b bs =>
          simp only [linesAfter, List.cons_append, List.cons.injEq, true_and] at same
          obtain ⟨rfl, others⟩ := text_inj a b (each a (by simp)) (each' b (by simp))
            (behind_linesAfter as) (behind_linesAfter bs) same
          rw [ih (fun item member => each item (by simp [member]))
            (fun item member => each' item (by simp [member])) others]

theorem lines_inj {as bs : List Sexp} (each : ∀ item ∈ as, item.Proper)
    (each' : ∀ item ∈ bs, item.Proper) (same : lines as = lines bs) : as = bs := by
  cases as with
  | nil =>
      cases bs with
      | nil => rfl
      | cons b bs =>
          obtain ⟨c, more, starts, _⟩ := (each' b (by simp)).exists_cons (linesAfter bs)
          cases same.trans starts
  | cons a as =>
      cases bs with
      | nil =>
          obtain ⟨c, more, starts, _⟩ := (each a (by simp)).exists_cons (linesAfter as)
          cases same.symm.trans starts
      | cons b bs =>
          refine linesAfter_inj each each' ?_
          rw [linesAfter, linesAfter, List.cons_append, List.cons_append]
          exact congrArg _ same

end Sexp

end Ardoise
