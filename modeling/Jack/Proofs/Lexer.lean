import Jack.Proofs.Text
import Jack.Token.Lexer

/-! Tokens that are read from text. -/

namespace Jack

/-- The lexeme of a word is a name. -/
def Token.Spelled (t : Token) : Prop :=
  t.terminal = .ident ∨ t.terminal.isKeyword = true → t.lexeme.isName = true

namespace Lexer

theorem isName_takeWhile {b : UInt8} (h : Byte.isNameStart b = true) (rest : Text) :
    Text.isName ((b :: rest).takeWhile Byte.isWord) = true := by
  have hw : Byte.isWord b = true := by rw [Byte.isWord, h, Bool.true_or]
  rw [List.takeWhile_cons_of_pos hw, Text.isName, h, Bool.true_and]
  exact List.all_takeWhile

theorem spelled_readToken (l : Lexer) : l.readToken.1.Spelled := by
  unfold readToken
  split
  · simp [emit, Token.Spelled, Terminal.isKeyword]
  · next c rest hr =>
    split
    · split <;> simp [emit, Token.Spelled, Terminal.isKeyword]
    split
    · simp [emit, Token.Spelled, Terminal.isKeyword]
    split
    · next hn =>
      intro _
      simpa [emit, hr] using isName_takeWhile hn rest
    · split <;> simp [emit, Token.Spelled, Terminal.isKeyword]

theorem spelled_next (l : Lexer) : l.next.1.Spelled := by
  unfold next
  split
  · exact spelled_readToken _
  · simp [Token.Spelled, Terminal.isKeyword]

theorem spelled_of_mem_exhaust (n : Nat) (l : Lexer) : ∀ t ∈ (exhaust n l).1, t.Spelled := by
  induction n generalizing l with
  | zero => simp [exhaust]
  | succ n ih =>
    have hn := spelled_next l
    unfold exhaust
    generalize l.next = taken at hn
    dsimp only
    split
    · simp
    · intro u hu
      obtain rfl | hu := List.mem_cons.mp hu
      · exact hn
      · exact ih _ u hu

theorem spelled_of_mem_tokens (l : Lexer) : ∀ t ∈ l.toSource.tokens, t.Spelled :=
  spelled_of_mem_exhaust (l.rest.length + 1) l

end Lexer

end Jack
