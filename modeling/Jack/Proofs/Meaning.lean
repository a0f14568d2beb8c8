import Jack.Proofs.Machine.Run
import Jack.Proofs.Translation

/-! What a class means, by recursion on its tree and without code. Parameters and locals are known by
their names. Fields lie in the heap from the current object on, and statics in memory, each at the place
that its class gives it. -/

namespace Jack.Tree

open Machine (Library Memory)

/-- The values of the parameters and locals; a parameter without an argument has none. -/
abbrev Vars := Text → Option Machine.Word

/-- What statements change. -/
structure Store where
  vars : Vars
  memory : Memory

def Literal.value (self : Machine.Word) : Literal → Machine.Word
  | .true => Machine.ofBool .true
  | .false => 0
  | .null => 0
  | .this => self

def Unary.apply : Unary → Machine.Word → Machine.Word
  | .neg, w => -w
  | .not, w => ~~~w

section

variable (lib : Library)

/-- Products and quotients are computed by the library. -/
def Operator.apply (x y : Machine.Word) (m : Memory) : Operator → Machine.Word × Memory
  | .add => (x + y, m)
  | .sub => (x - y, m)
  | .mul => lib "Math.multiply" [x, y] m
  | .div => lib "Math.divide" [x, y] m
  | .and => (x &&& y, m)
  | .or => (x ||| y, m)
  | .lt => (Machine.ofBool (x.slt y), m)
  | .gt => (Machine.ofBool (y.slt x), m)
  | .eq => (Machine.ofBool (x == y), m)

/-- A string is an object to which its characters are appended one by one. -/
def appendChars : List Nat → Machine.Word → Memory → Machine.Word × Memory
  | [], string, m => (string, m)
  | c :: cs, string, m =>
    let (string, m) := lib "String.appendChar" [string, BitVec.ofNat 16 c] m
    appendChars cs string m

def stringValue (lexeme : Text) (m : Memory) : Machine.Word × Memory :=
  let chars := Utf8.codePoints lexeme
  let (string, m) := lib "String.new" [BitVec.ofNat 16 chars.length] m
  appendChars lib chars string m

variable (env : Env) (self : Machine.Word)

/-- The value of a variable. -/
def Env.read (vars : Vars) (m : Memory) (x : Text) : Option Machine.Word := do
  let v ← env.find? x
  match v.storage with
  | .static => some (m.statics v.index)
  | .field => some (m.heap (self + BitVec.ofNat 16 v.index))
  | .argument | .var => vars x
  | .other _ => none

/-- The store after a variable got a value. -/
def Env.write (σ : Store) (x : Text) (w : Machine.Word) : Option Store := do
  let v ← env.find? x
  match v.storage with
  | .static => some { σ with memory := σ.memory.setStatic v.index w }
  | .field => some { σ with memory := σ.memory.setHeap (self + BitVec.ofNat 16 v.index) w }
  | .argument | .var => do
    let _ ← σ.vars x
    some { σ with vars := fun y => if y = x then some w else σ.vars y }
  | .other _ => none

section

variable (vars : Vars)

mutual

/-- The value of a term, and the memory after its calls. An index is evaluated before its base is
read. -/
def Term.eval : Term → Memory → Option (Machine.Word × Memory)
  | .number constant, m => constant.token.word?.map fun n => (BitVec.ofNat 16 n, m)
  | .string constant, m => some (stringValue lib constant.lexeme m)
  | .literal l _, m => some (l.value self, m)
  | .var x, m => (env.read self vars m x.lexeme).map (·, m)
  | .element x _ index, m => do
    let (i, m) ← index.eval m
    let base ← env.read self vars m x.lexeme
    some (m.heap (base + i), m)
  | .call c, m => c.eval m
  | .paren _ e, m => e.eval m
  | .unary op _ t, m => do
    let (w, m) ← t.eval m
    some (op.apply w, m)

/-- Operators apply from left to right. -/
def Expression.eval : Expression → Memory → Option (Machine.Word × Memory)
  | .mk first rest, m => do
    let (w, m) ← first.eval m
    rest.eval w m

def Operations.eval : Operations → Machine.Word → Memory → Option (Machine.Word × Memory)
  | .nil, w, m => some (w, m)
  | .cons op _ t rest, w, m => do
    let (v, m) ← t.eval m
    let (w, m) := op.apply lib w v m
    rest.eval w m

/-- A receiver is read before the arguments are evaluated. -/
def Call.eval : Call → Memory → Option (Machine.Word × Memory)
  | .own f _ args, m => do
    let (ws, m) ← args.eval m
    some (lib (env.className ++ "." ++ f.lexeme) (self :: ws) m)
  | .qualified x _ f _ args, m =>
    match env.find? x.lexeme with
    | some v => do
      let receiver ← env.read self vars m x.lexeme
      let (ws, m) ← args.eval m
      some (lib (v.type ++ "." ++ f.lexeme) (receiver :: ws) m)
    | none => do
      let (ws, m) ← args.eval m
      some (lib (x.lexeme ++ "." ++ f.lexeme) ws m)

def Arguments.eval : Arguments → Memory → Option (List Machine.Word × Memory)
  | .none, m => some ([], m)
  | .some first rest, m => do
    let (w, m) ← first.eval m
    let (ws, m) ← rest.eval m
    some (w :: ws, m)

def MoreArguments.eval : MoreArguments → Memory → Option (List Machine.Word × Memory)
  | .nil, m => some ([], m)
  | .cons _ e rest, m => do
    let (w, m) ← e.eval m
    let (ws, m) ← rest.eval m
    some (w :: ws, m)

end

end

mutual

/-- A run of a statement from one store to another, with the word that it returns, if it does. A
conditional holds of every word but zero; a loop goes on as long as its condition is `true` itself. -/
inductive Statement.Exec : Statement → Store → Option Machine.Word → Store → Prop
  | letVar {word x eq value semicolon σ w m σ'}
      (hv : value.eval lib env self σ.vars σ.memory = some (w, m))
      (hw : env.write self { σ with memory := m } x.lexeme w = some σ') :
      Statement.Exec (.letVar word x eq value semicolon) σ none σ'
  | letElement {word x brackets index eq value semicolon σ i m₁ base w m₂}
      (hi : index.eval lib env self σ.vars σ.memory = some (i, m₁))
      (hb : env.read self σ.vars m₁ x.lexeme = some base)
      (hv : value.eval lib env self σ.vars m₁ = some (w, m₂)) :
      Statement.Exec (.letElement word x brackets index eq value semicolon) σ none
        { σ with memory := m₂.setHeap (base + i) w }
  | ifThen {word parens cond braces body σ w m r σ'}
      (hc : cond.eval lib env self σ.vars σ.memory = some (w, m)) (hw : w ≠ 0)
      (hb : Statements.Exec body { σ with memory := m } r σ') :
      Statement.Exec (.ifThen word parens cond braces body) σ r σ'
  | ifThenNot {word parens cond braces body σ m}
      (hc : cond.eval lib env self σ.vars σ.memory = some (0, m)) :
      Statement.Exec (.ifThen word parens cond braces body) σ none { σ with memory := m }
  | ifElse {word parens cond braces body elseWord elseBraces elseBody σ w m r σ'}
      (hc : cond.eval lib env self σ.vars σ.memory = some (w, m)) (hw : w ≠ 0)
      (hb : Statements.Exec body { σ with memory := m } r σ') :
      Statement.Exec (.ifElse word parens cond braces body elseWord elseBraces elseBody) σ r σ'
  | ifElseNot {word parens cond braces body elseWord elseBraces elseBody σ m r σ'}
      (hc : cond.eval lib env self σ.vars σ.memory = some (0, m))
      (hb : Statements.Exec elseBody { σ with memory := m } r σ') :
      Statement.Exec (.ifElse word parens cond braces body elseWord elseBraces elseBody) σ r σ'
  | while {word parens cond braces body σ m σ₁ r σ₂}
      (hc : cond.eval lib env self σ.vars σ.memory = some (Machine.ofBool true, m))
      (hb : Statements.Exec body { σ with memory := m } none σ₁)
      (hw : Statement.Exec (.while word parens cond braces body) σ₁ r σ₂) :
      Statement.Exec (.while word parens cond braces body) σ r σ₂
  | whileReturn {word parens cond braces body σ m v σ₁}
      (hc : cond.eval lib env self σ.vars σ.memory = some (Machine.ofBool true, m))
      (hb : Statements.Exec body { σ with memory := m } (some v) σ₁) :
      Statement.Exec (.while word parens cond braces body) σ (some v) σ₁
  | whileNot {word parens cond braces body σ w m}
      (hc : cond.eval lib env self σ.vars σ.memory = some (w, m)) (hw : w ≠ Machine.ofBool true) :
      Statement.Exec (.while word parens cond braces body) σ none { σ with memory := m }
  | do {word call semicolon σ w m} (hc : call.eval lib env self σ.vars σ.memory = some (w, m)) :
      Statement.Exec (.do word call semicolon) σ none { σ with memory := m }
  | return {word semicolon σ} : Statement.Exec (.return word semicolon) σ (some 0) σ
  | returnValue {word value semicolon σ w m}
      (hv : value.eval lib env self σ.vars σ.memory = some (w, m)) :
      Statement.Exec (.returnValue word value semicolon) σ (some w) { σ with memory := m }

/-- Statements run one after another until one of them returns. -/
inductive Statements.Exec : Statements → Store → Option Machine.Word → Store → Prop
  | nil {σ} : Statements.Exec .nil σ none σ
  | cons {first rest σ σ₁ r σ₂} (hf : Statement.Exec first σ none σ₁)
      (hr : Statements.Exec rest σ₁ r σ₂) :
      Statements.Exec (.cons first rest) σ r σ₂
  | consReturn {first rest σ v σ₁} (hf : Statement.Exec first σ (some v) σ₁) :
      Statements.Exec (.cons first rest) σ (some v) σ₁

end

end

/-- The argument that a name stands for among parameters, the last of which wins. -/
def argument? (x : Text) : List Text → List Machine.Word → Option Machine.Word
  | [], _ => none
  | y :: names, args =>
    if x ∈ names then argument? x names args.tail else if y = x then args.head? else none

namespace SubroutineDec

/-- The variables that a subroutine starts with. Locals are zero and hide parameters. -/
def initial (args : List Machine.Word) (d : SubroutineDec) : Vars := fun x =>
  if x ∈ d.localNames then some 0 else argument? x d.argumentNames args

/-- The current object and the memory that a subroutine starts with: a constructor allocates its object,
a method takes it from its first argument, and a function keeps that of its caller. -/
def enter (lib : Library) (fields : Nat) (args : List Machine.Word) (this : Machine.Word) (m : Memory)
    (d : SubroutineDec) : Option (Machine.Word × Memory) :=
  match d.kind with
  | .constructor => some (lib "Memory.alloc" [BitVec.ofNat 16 fields] m)
  | .function => some (this, m)
  | .method => args.head?.map (·, m)

/-- A run of a subroutine of a class: it returns a word, or none where its statements come to their
end. -/
def Exec (lib : Library) (className : Text) (ofClass : List Declaration) (args : List Machine.Word)
    (this : Machine.Word) (m : Memory) (d : SubroutineDec) (r : Option Machine.Word) (m' : Memory) :
    Prop :=
  ∃ self m₁ σ, d.enter lib (ofClass.countP (·.storage = .field)) args this m = some (self, m₁) ∧
    d.body.Exec lib (d.env className ofClass) self ⟨d.initial args, m₁⟩ r σ ∧ σ.memory = m'

end SubroutineDec

end Jack.Tree
