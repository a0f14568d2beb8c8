import Jack.Token.Basic

/-! Sources: a finite supply of tokens that answers with the end of input ever after. -/

namespace Jack

structure Source where
  /-- The tokens still to be handed out. -/
  tokens : List Token
  /-- The line of the end of input. -/
  endLine : Int
  /-- How many tokens were asked for, the end of input counted each time. -/
  taken : Nat := 0
  deriving Repr

namespace Source

def endToken (s : Source) : Token := ⟨.eof, [], s.endLine⟩

def next (s : Source) : Token × Source :=
  match s.tokens with
  | [] => (s.endToken, { s with taken := s.taken + 1 })
  | t :: rest => (t, { s with tokens := rest, taken := s.taken + 1 })

/-- Replays given tokens. The end of input stands on the line of the last of them, or on line 1. -/
def replay (tokens : List Token) : Source :=
  { tokens, endLine := (tokens.getLast?.map Token.line).getD 1 }

end Source

end Jack
