import Jack.Compile.Expression

/-! Statements:

letStatement: 'let' varName ('[' expression ']')? '=' expression ';'
ifStatement: 'if' '(' expression ')' '{' statements '}' ('else' '{' statements '}')?
whileStatement: 'while' '(' expression ')' '{' statements '}'
doStatement: 'do' subroutineCall ';'
returnStatement: 'return' expression? ';'
-/

namespace Jack.Pass

/-- The address of an array element is fixed before the value is computed, and used after it. -/
def letStatement (n : Nat) : Pass Unit := within .letStatement do
  keyword .let
  let target ← resolve (← ident)
  if (← peek) = .punct .lbracket then
    punct .lbracket
    expression n
    punct .rbracket
    pushVariable target
    emit (.arithmetic .add)
    punct .eq
    expression n
    punct .semicolon
    emit (.pop .temp 0)
    emit (.pop .pointer 1)
    emit (.push .temp 0)
    emit (.pop .that 0)
  else
    punct .eq
    expression n
    punct .semicolon
    popVariable target

def block (statements : Pass Unit) : Pass Unit := do
  punct .lbrace
  statements
  punct .rbrace

def condition (n : Nat) : Pass Unit := do
  punct .lparen
  expression n
  punct .rparen

def ifStatement (statements : Pass Unit) (n : Nat) : Pass Unit := within .ifStatement do
  let i ← modifyGet fun s => (s.nextIf, { s with nextIf := s.nextIf + 1 })
  keyword .if
  condition n
  emit (.ifGoto (.ifTrue i))
  emit (.goto (.ifFalse i))
  emit (.label (.ifTrue i))
  block statements
  if (← peek) = .keyword .else then
    emit (.goto (.ifEnd i))
    emit (.label (.ifFalse i))
    keyword .else
    block statements
    emit (.label (.ifEnd i))
  else
    emit (.label (.ifFalse i))

def whileStatement (statements : Pass Unit) (n : Nat) : Pass Unit := within .whileStatement do
  let i ← modifyGet fun s => (s.nextWhile, { s with nextWhile := s.nextWhile + 1 })
  emit (.label (.whileExp i))
  keyword .while
  condition n
  emit (.arithmetic .not)
  emit (.ifGoto (.whileEnd i))
  block statements
  emit (.goto (.whileExp i))
  emit (.label (.whileEnd i))

/-- Every call leaves a value behind, which is dropped here. -/
def doStatement (n : Nat) : Pass Unit := within .doStatement do
  keyword .do
  call n (← ident)
  punct .semicolon
  emit (.pop .temp 0)

/-- Zero is returned where no expression is. -/
def returnStatement (n : Nat) : Pass Unit := within .returnStatement do
  keyword .return
  if (← peek) = .punct .semicolon then emit (.push .constant 0) else expression n
  punct .semicolon
  emit .ret

def statementBy (statements : Pass Unit) (n : Nat) : Terminal → Option (Pass Unit)
  | .keyword .let => some (letStatement n)
  | .keyword .if => some (ifStatement statements n)
  | .keyword .while => some (whileStatement statements n)
  | .keyword .do => some (doStatement n)
  | .keyword .return => some (returnStatement n)
  | _ => none

/-- There are at most `n` tokens left, and at zero there are no statements. -/
def statements : Nat → Pass Unit
  | 0 => within .statements (return ())
  | n + 1 => within .statements do
    discard <| repeatBy (statementBy (statements n) n) (n + 1)

end Jack.Pass
