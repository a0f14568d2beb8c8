import Jack.Compile.Statement

/-! Declarations, up to a whole class and nothing after it:

classVarDec: ('static' | 'field') type varName (',' varName)* ';'
varDec: 'var' type varName (',' varName)* ';'
parameterList: (type varName (',' type varName)*)?
subroutineBody: '{' varDec* statements '}'
subroutineDec: ('constructor' | 'function' | 'method') ('void' | type) subroutineName
  '(' parameterList ')' subroutineBody
class: 'class' className '{' classVarDec* subroutineDec* '}'
-/

namespace Jack.Pass

def typeTerminals : List Terminal := [.keyword .int, .keyword .char, .keyword .boolean, .ident]

def declareNext (type : Text) (storage : Storage) : Pass Unit := do
  let name ← ident
  declare name.lexeme type storage

def varNames (storage : Storage) (n : Nat) : Pass Unit := do
  let type ← expect typeTerminals
  declareNext type.lexeme storage
  discard <| repeatBy (afterComma (declareNext type.lexeme storage)) n
  punct .semicolon

def classVarDec (n : Nat) : Pass Unit := within .classVarDec do
  let word ← expect [.keyword .field, .keyword .static]
  varNames (if word.terminal = .keyword .field then .field else .static) n

def varDec (n : Nat) : Pass Unit := within .varDec do
  keyword .var
  varNames .var n

def parameter : Pass Unit := do
  let type ← expect typeTerminals
  declareNext type.lexeme .argument

def parameterList (n : Nat) : Pass Unit := within .parameterList do
  if (← peek) = .punct .rparen then return
  parameter
  discard <| repeatBy (afterComma parameter) n

def varDecBy (n : Nat) : Terminal → Option (Pass Unit)
  | .keyword .var => some (varDec n)
  | _ => none

/-- What a subroutine does before its statements: a constructor allocates its object, a method takes it
from its first argument. -/
def prologue : Terminal → Pass Unit
  | .keyword .constructor => do
    emit (.push .constant ((← get).scopes.count .field))
    emit (.call "Memory.alloc" 1)
    emit (.pop .pointer 0)
  | .keyword .method => do
    emit (.push .argument 0)
    emit (.pop .pointer 0)
  | _ => return ()

def subroutineBody (name : Text) (kind : Terminal) (n : Nat) : Pass Unit := within .subroutineBody do
  punct .lbrace
  discard <| repeatBy (varDecBy n) n
  let locals := (← get).scopes.count .var
  emit (.function name locals)
  note (.wroteFunction name locals)
  prologue kind
  statements n
  punct .rbrace

def startSubroutine : Pass Unit :=
  modify fun s => { s with nextIf := 0, nextWhile := 0, scopes := s.scopes.startSubroutine }

/-- A method has its object as its first argument. -/
def subroutineDec (n : Nat) : Pass Unit := within .subroutineDec do
  startSubroutine
  let kind ← expect [.keyword .constructor, .keyword .function, .keyword .method]
  if kind.terminal = .keyword .method then declare "this" (← get).className .argument
  discard <| expect (.keyword .void :: typeTerminals)
  let name ← ownSubroutine (← ident).lexeme
  punct .lparen
  parameterList n
  punct .rparen
  subroutineBody name kind.terminal n

def classVarDecBy (n : Nat) : Terminal → Option (Pass Unit)
  | .keyword .static | .keyword .field => some (classVarDec n)
  | _ => none

def subroutineDecBy (n : Nat) : Terminal → Option (Pass Unit)
  | .keyword .constructor | .keyword .function | .keyword .method => some (subroutineDec n)
  | _ => none

def classDec (n : Nat) : Pass Unit := within .classDec do
  keyword .class
  let name ← ident
  modify fun s => { s with className := name.lexeme }
  note (.compiling name.lexeme)
  punct .lbrace
  discard <| repeatBy (classVarDecBy n) n
  discard <| repeatBy (subroutineDecBy n) n
  punct .rbrace

def wholeClass (n : Nat) : Pass Unit := do
  classDec n
  if (← peek) ≠ .eof then reject .endOfInput

end Jack.Pass
