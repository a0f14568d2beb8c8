import Jack.Scope
import Jack.Token.Basic

/-! Why a class is rejected, and how the reason is worded. -/

namespace Jack

/-- What would have been accepted in place of a token. -/
inductive Expectation where
  | oneOf (terminals : List Terminal)
  | term
  | endOfInput
  deriving DecidableEq, Repr

def Expectation.message : Expectation → Text
  | .oneOf ts => "Expected one of: [" ++ Text.joinWith ", " (ts.map Terminal.name) ++ "]"
  | .term => "Expected a term"
  | .endOfInput => "Expected end of input after class"

inductive CompileError where
  | unexpected (found : Token) (expected : Expectation)
  /-- An integer constant that is no word. -/
  | outOfRange (constant : Token)
  /-- A name that stands for no variable. -/
  | undefined (use : Token)
  deriving DecidableEq, Repr

namespace CompileError

def token : CompileError → Token
  | .unexpected t _ | .outOfRange t | .undefined t => t

def atEnd : CompileError → Bool
  | .undefined _ => false
  | e => e.token.terminal = .eof

/-- The reason alone. An illegal token is called so, whatever was expected. -/
def reason : CompileError → Text
  | .unexpected t expected =>
    if t.terminal = .illegal then "Unexpected character" else expected.message
  | .outOfRange _ => "Integer constant out of range [0, " ++ Text.ofNat maxWord ++ "]"
  | .undefined t => Scopes.undefined t.lexeme

def message (e : CompileError) : Text :=
  let place : Text := if e.atEnd then "end" else "'" ++ e.token.lexeme ++ "'"
  "[line " ++ Text.ofInt e.token.line ++ "] Error at " ++ place ++ ": " ++ e.reason

end CompileError

end Jack
