import Jack.Token.Basic

/-! Traces: the record of a derivation, in the order in which it was read. -/

namespace Jack

inductive Nonterminal where
  | classDec
  | classVarDec
  | subroutineDec
  | parameterList
  | subroutineBody
  | varDec
  | statements
  | letStatement
  | ifStatement
  | whileStatement
  | doStatement
  | returnStatement
  | expression
  | term
  | expressionList
  deriving DecidableEq, Repr

def Nonterminal.tag : Nonterminal → Text
  | .classDec => "class"
  | .classVarDec => "classVarDec"
  | .subroutineDec => "subroutineDec"
  | .parameterList => "parameterList"
  | .subroutineBody => "subroutineBody"
  | .varDec => "varDec"
  | .statements => "statements"
  | .letStatement => "letStatement"
  | .ifStatement => "ifStatement"
  | .whileStatement => "whileStatement"
  | .doStatement => "doStatement"
  | .returnStatement => "returnStatement"
  | .expression => "expression"
  | .term => "term"
  | .expressionList => "expressionList"

namespace Trace

inductive Entry where
  | opened (n : Nonterminal)
  | closed (n : Nonterminal)
  | terminal (t : Token)
  deriving DecidableEq, Repr

/-- Two spaces for every level. -/
def indent (depth : Nat) : Text := List.replicate (2 * depth) Byte.space

/-- The lines of a trace whose first entry is at the given depth. -/
def lines : Nat → List Entry → List Text
  | _, [] => []
  | depth, .opened n :: rest => (indent depth ++ "<" ++ n.tag ++ ">") :: lines (depth + 1) rest
  | depth, .closed n :: rest => (indent (depth - 1) ++ "</" ++ n.tag ++ ">") :: lines (depth - 1) rest
  | depth, .terminal t :: rest => (indent depth ++ t.xml) :: lines depth rest

end Trace

end Jack
