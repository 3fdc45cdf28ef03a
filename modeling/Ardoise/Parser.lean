import Ardoise.Parser.Progress

/-!
# Parsing a text

`parse` turns the tokens of a whole text into a program, or stops at the first
token that does not fit.  The allowance it starts with is one more than there
are tokens, so it never runs short.
-/

namespace Ardoise

namespace Parser

/--
What is read behind the last token: the end of the text, where the list of
tokens has one.
-/
def finalToken (tokens : List Token) : Token :=
  match tokens.getLast? with
  | some token => if token.kind = .endOfInput then token else .endAt .nowhere
  | none => .endAt .nowhere

theorem finalToken_kind (tokens : List Token) : (finalToken tokens).kind = .endOfInput := by
  unfold finalToken
  split
  · split
    · assumption
    · rfl
  · rfl

end Parser

namespace Reply

variable {α : Type}

def result : (reply : Reply α) → reply ≠ .exhausted → Except (Located GrammarFault) α
  | .parsed value _, _ => .ok value
  | .refused fault _, _ => .error fault
  | .exhausted, ended => (ended rfl).elim

theorem result_eq_ok {reply : Reply α} (ended : reply ≠ .exhausted) {value : α} :
    reply.result ended = .ok value ↔ ∃ cursor, reply = .parsed value cursor := by
  cases reply with
  | parsed found cursor => simp [result]
  | refused => simp [result]
  | exhausted => exact (ended rfl).elim

theorem result_eq_error {reply : Reply α} (ended : reply ≠ .exhausted)
    {fault : Located GrammarFault} :
    reply.result ended = .error fault ↔ ∃ cursor, reply = .refused fault cursor := by
  cases reply with
  | parsed => simp [result]
  | refused found cursor => simp [result]
  | exhausted => exact (ended rfl).elim

end Reply

def parseReply (limit : Nat) (tokens : List Token) : Reply Program :=
  Parser.program (tokens.length + 1) ⟨limit, Parser.finalToken tokens⟩ ⟨tokens, 0⟩

theorem parseReply_ne_exhausted (limit : Nat) (tokens : List Token) :
    parseReply limit tokens ≠ .exhausted := by
  intro ended
  have proper := Parser.ends_program (Nat.lt_succ_self tokens.length)
    ⟨limit, Parser.finalToken tokens⟩ ⟨tokens, 0⟩ (Parser.finalToken_kind tokens) (Nat.le_refl _)
  change (parseReply limit tokens).Proper 0 _ at proper
  rw [ended] at proper
  exact proper

def parse (limit : Nat) (tokens : List Token) : Except (Located GrammarFault) Program :=
  (parseReply limit tokens).result (parseReply_ne_exhausted limit tokens)

end Ardoise
