import Jack.Proofs.Tree.Class

/-! The code of a class, by recursion on its tree. -/

namespace Jack

namespace Declaration

/-- The variable that a declaration makes after the given earlier ones of the same class or
subroutine. Its index is the number of earlier ones of its storage. -/
def place (earlier : List Declaration) (d : Declaration) : Variable :=
  { name := d.name, type := d.type, storage := d.storage
    index := earlier.countP (·.storage = d.storage) }

/-- The variable that a name stands for among declarations, the latest of which comes first and
wins. -/
def find? (x : Text) : List Declaration → Option Variable
  | [] => none
  | d :: earlier => if d.name = x then some (d.place earlier) else find? x earlier

/-- A name stands for a variable that one of the declarations makes. -/
theorem exists_place {x : Text} {v : Variable} {ds : List Declaration} (h : find? x ds = some v) :
    ∃ d ∈ ds, ∃ earlier, v = d.place earlier := by
  induction ds with
  | nil => simp [find?] at h
  | cons d ds ih =>
    unfold find? at h
    split at h
    · cases h
      exact ⟨d, by simp, ds, rfl⟩
    · obtain ⟨d', hd, hv⟩ := ih h
      exact ⟨d', by simp [hd], hv⟩

end Declaration

namespace Tree

/-- What the names in a subroutine stand for. -/
structure Env where
  className : Text
  find? : Text → Option Variable

namespace Env

/-- The names of a subroutine hide those of its class. -/
def ofDeclarations (className : Text) (ofClass ofSubroutine : List Declaration) : Env where
  className
  find? x := (Declaration.find? x ofSubroutine.reverse).or (Declaration.find? x ofClass.reverse)

/-- The variable that a name stands for, where it stands for one. -/
def get (env : Env) (x : Text) : Variable := (env.find? x).getD ⟨x, [], .other [], 0⟩

def push (env : Env) (x : Text) : Instruction := .push (env.get x).storage.segment (env.get x).index

def pop (env : Env) (x : Text) : Instruction := .pop (env.get x).storage.segment (env.get x).index

end Env

def Literal.code : Literal → List Instruction
  | .true => [.push .constant 0, .arithmetic .not]
  | .false => [.push .constant 0]
  | .null => [.push .constant 0]
  | .this => [.push .pointer 0]

def Unary.code : Unary → Instruction
  | .neg => .arithmetic .neg
  | .not => .arithmetic .not

def Operator.code : Operator → Instruction
  | .add => .arithmetic .add
  | .sub => .arithmetic .sub
  | .mul => .call "Math.multiply" 2
  | .div => .call "Math.divide" 2
  | .and => .arithmetic .and
  | .or => .arithmetic .or
  | .lt => .arithmetic .lt
  | .gt => .arithmetic .gt
  | .eq => .arithmetic .eq

/-- A string is made with room for its characters, which are then appended one by one. -/
def stringCode (lexeme : Text) : List Instruction :=
  .push .constant (Utf8.codePoints lexeme).length :: .call "String.new" 1 ::
    (Utf8.codePoints lexeme).flatMap fun (c : Nat) =>
      [.push .constant c, .call "String.appendChar" 2]

mutual

/-- The code of a term leaves its value on the stack. -/
@[simp] def Term.code (env : Env) : Term → List Instruction
  | .number constant => [.push .constant (constant.token.word?.getD 0)]
  | .string constant => stringCode constant.lexeme
  | .literal l _ => l.code
  | .var x => [env.push x.lexeme]
  | .element x _ index => index.code env ++
      [env.push x.lexeme, .arithmetic .add, .pop .pointer 1, .push .that 0]
  | .call c => c.code env
  | .paren _ e => e.code env
  | .unary op _ t => t.code env ++ [op.code]

@[simp] def Expression.code (env : Env) : Expression → List Instruction
  | .mk first rest => first.code env ++ rest.code env

/-- Operators apply from left to right. -/
@[simp] def Operations.code (env : Env) : Operations → List Instruction
  | .nil => []
  | .cons op _ t rest => t.code env ++ op.code :: rest.code env

/-- A call without a qualifier has the current object as its first argument, and one that is qualified
by a variable has the object in it. -/
@[simp] def Call.code (env : Env) : Call → List Instruction
  | .own f _ args =>
    .push .pointer 0 :: args.code env ++
      [.call (env.className ++ "." ++ f.lexeme) (1 + args.count : Nat)]
  | .qualified x _ f _ args =>
    match env.find? x.lexeme with
    | some v => .push v.storage.segment v.index :: args.code env ++
        [.call (v.type ++ "." ++ f.lexeme) (1 + args.count : Nat)]
    | none => args.code env ++ [.call (x.lexeme ++ "." ++ f.lexeme) (args.count : Nat)]

@[simp] def Arguments.code (env : Env) : Arguments → List Instruction
  | .none => []
  | .some first rest => first.code env ++ rest.code env

@[simp] def MoreArguments.code (env : Env) : MoreArguments → List Instruction
  | .nil => []
  | .cons _ e rest => e.code env ++ rest.code env

end

mutual

/-- The code of a statement, where `i` and `w` are the numbers of the next conditional and the next
loop. A construct is numbered before those inside it. -/
@[simp] def Statement.code (env : Env) (i w : Nat) : Statement → List Instruction
  | .letVar _ x _ value _ => value.code env ++ [env.pop x.lexeme]
  | .letElement _ x _ index _ value _ =>
    index.code env ++ env.push x.lexeme :: .arithmetic .add :: value.code env ++
      [.pop .temp 0, .pop .pointer 1, .push .temp 0, .pop .that 0]
  | .ifThen _ _ cond _ body =>
    cond.code env ++ .ifGoto (.ifTrue i) :: .goto (.ifFalse i) :: .label (.ifTrue i) ::
      body.code env (i + 1) w ++ [.label (.ifFalse i)]
  | .ifElse _ _ cond _ body _ _ elseBody =>
    cond.code env ++ .ifGoto (.ifTrue i) :: .goto (.ifFalse i) :: .label (.ifTrue i) ::
      body.code env (i + 1) w ++ .goto (.ifEnd i) :: .label (.ifFalse i) ::
      elseBody.code env (i + 1 + body.ifs) (w + body.whiles) ++ [.label (.ifEnd i)]
  | .while _ _ cond _ body =>
    .label (.whileExp w) :: cond.code env ++ .arithmetic .not :: .ifGoto (.whileEnd w) ::
      body.code env i (w + 1) ++ [.goto (.whileExp w), .label (.whileEnd w)]
  | .do _ c _ => c.code env ++ [.pop .temp 0]
  | .return _ _ => [.push .constant 0, .ret]
  | .returnValue _ value _ => value.code env ++ [.ret]

@[simp] def Statements.code (env : Env) (i w : Nat) : Statements → List Instruction
  | .nil => []
  | .cons first rest =>
    first.code env i w ++ rest.code env (i + first.ifs) (w + first.whiles)

end

/-- A constructor allocates its object, a method takes it from its first argument. -/
def SubroutineKind.prologue (fields : Nat) : SubroutineKind → List Instruction
  | .constructor => [.push .constant fields, .call "Memory.alloc" 1, .pop .pointer 0]
  | .function => []
  | .method => [.push .argument 0, .pop .pointer 0]

namespace SubroutineDec

/-- What names in a subroutine stand for, in a class of the given name and declarations. -/
def env (className : Text) (ofClass : List Declaration) (d : SubroutineDec) : Env :=
  .ofDeclarations className ofClass (d.declarations className)

def locals (d : SubroutineDec) : Nat := d.localNames.length

def code (className : Text) (ofClass : List Declaration) (d : SubroutineDec) : List Instruction :=
  .function (className ++ "." ++ d.name.lexeme) d.locals ::
    d.kind.prologue (ofClass.countP (·.storage = .field)) ++
      d.body.code (d.env className ofClass) 0 0

end SubroutineDec

def ClassDec.code (c : ClassDec) : List Instruction :=
  c.subroutines.flatMap (·.code c.name.lexeme c.declarations)

end Tree

end Jack
