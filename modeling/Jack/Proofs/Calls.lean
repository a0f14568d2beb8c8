import Jack.Proofs.Machine.Log
import Jack.Proofs.Meaning

/-! The calls that the evaluation of a tree makes, in order. What a call gets may depend on what the calls
before it did to the memory. -/

namespace Jack.Tree

open Machine (Library Memory Request)

variable (lib : Library)

def Operator.calls (x y : Machine.Word) : Operator → List Request
  | .mul => [⟨"Math.multiply", [x, y]⟩]
  | .div => [⟨"Math.divide", [x, y]⟩]
  | _ => []

def appendCalls : List Nat → Machine.Word → Memory → List Request
  | [], _, _ => []
  | c :: cs, string, m =>
    let (next, m) := lib "String.appendChar" [string, BitVec.ofNat 16 c] m
    ⟨"String.appendChar", [string, BitVec.ofNat 16 c]⟩ :: appendCalls cs next m

def stringCalls (lexeme : Text) (m : Memory) : List Request :=
  let chars := Utf8.codePoints lexeme
  let (string, m) := lib "String.new" [BitVec.ofNat 16 chars.length] m
  ⟨"String.new", [BitVec.ofNat 16 chars.length]⟩ :: appendCalls lib chars string m

variable (env : Env) (self : Machine.Word) (vars : Vars)

mutual

def Term.calls : Term → Memory → List Request
  | .number _, _ => []
  | .string constant, m => stringCalls lib constant.lexeme m
  | .literal _ _, _ => []
  | .var _, _ => []
  | .element _ _ index, m => index.calls m
  | .call c, m => c.calls m
  | .paren _ e, m => e.calls m
  | .unary _ _ t, m => t.calls m

def Expression.calls : Expression → Memory → List Request
  | .mk first rest, m =>
    first.calls m ++ (first.eval lib env self vars m).elim [] fun r => rest.calls r.1 r.2

/-- The calls of an operand come before that of its operator. -/
def Operations.calls : Operations → Machine.Word → Memory → List Request
  | .nil, _, _ => []
  | .cons op _ t rest, w, m =>
    t.calls m ++ (t.eval lib env self vars m).elim [] fun r =>
      op.calls w r.1 ++ rest.calls (op.apply lib w r.1 r.2).1 (op.apply lib w r.1 r.2).2

/-- The receiver is read before the calls of the arguments are made. -/
def Call.calls : Call → Memory → List Request
  | .own f _ args, m =>
    args.calls m ++ (args.eval lib env self vars m).elim [] fun r =>
      [⟨env.className ++ "." ++ f.lexeme, self :: r.1⟩]
  | .qualified x _ f _ args, m =>
    args.calls m ++ (args.eval lib env self vars m).elim [] fun r =>
      match env.find? x.lexeme with
      | some v => (env.read self vars m x.lexeme).elim [] fun receiver =>
        [⟨v.type ++ "." ++ f.lexeme, receiver :: r.1⟩]
      | none => [⟨x.lexeme ++ "." ++ f.lexeme, r.1⟩]

def Arguments.calls : Arguments → Memory → List Request
  | .none, _ => []
  | .some first rest, m =>
    first.calls m ++ (first.eval lib env self vars m).elim [] fun r => rest.calls r.2

def MoreArguments.calls : MoreArguments → Memory → List Request
  | .nil, _ => []
  | .cons _ e rest, m => e.calls m ++ (e.eval lib env self vars m).elim [] fun r => rest.calls r.2

end

end Jack.Tree
