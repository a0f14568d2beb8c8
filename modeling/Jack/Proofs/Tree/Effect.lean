import Jack.Proofs.Pass.Effect
import Jack.Proofs.Scope

/-! The effect of reading a tree, in the context in which it is read. -/

namespace Jack

namespace Tree

/-- The error that a mention leads to. -/
def Mention.fault (env : Env) : Mention → Option CompileError
  | .use x => if (env.find? x.lexeme).isSome then none else some (.undefined x)
  | .constant t => if t.word?.isSome then none else some (.outOfRange t)

/-- The error that the first wrong mention leads to. -/
def fault (env : Env) (mentions : List Mention) : Option CompileError :=
  mentions.findSome? (Mention.fault env)

@[simp] theorem fault_nil (env : Env) : fault env [] = none := rfl

@[simp] theorem fault_cons (env : Env) (m : Mention) (rest : List Mention) :
    fault env (m :: rest) = (m.fault env).or (fault env rest) := by
  cases h : m.fault env <;> simp [fault, List.findSome?, h]

@[simp] theorem fault_append (env : Env) (a b : List Mention) :
    fault env (a ++ b) = (fault env a).or (fault env b) := List.findSome?_append

end Tree

namespace Pass

def Context.env (c : Context) : Tree.Env := ⟨c.className, c.scopes.resolve?⟩

/-- The effect of reading a tree that declares and numbers nothing. -/
@[simp] def Effect.reading (env : Tree.Env) (tokens : List Token) (entries : List Trace.Entry)
    (code : List Instruction) (mentions : List Tree.Mention) : Effect :=
  { tokens, entries, code, fault := Tree.fault env mentions }

namespace Context

/-- Behind the given numbers of conditionals and loops. -/
def advance (ifs whiles : Nat) (c : Context) : Context :=
  { c with nextIf := c.nextIf + ifs, nextWhile := c.nextWhile + whiles }

section

variable (c : Context) (i w : Nat)

@[simp] theorem env_advance : (c.advance i w).env = c.env := rfl

@[simp] theorem nextIf_advance : (c.advance i w).nextIf = c.nextIf + i := rfl

@[simp] theorem nextWhile_advance : (c.advance i w).nextWhile = c.nextWhile + w := rfl

end

@[simp] theorem advance_zero : advance 0 0 = id := rfl

@[simp] theorem advance_comp (i w i' w' : Nat) :
    advance i w ∘ advance i' w' = advance (i' + i) (w' + w) := by
  funext c
  simp [advance, Nat.add_assoc]

end Context

end Pass

namespace Tree

open Pass (Context Effect)

section

variable (c : Context)

@[simp] def Term.effect (t : Term) : Effect :=
  .reading c.env t.tokens t.entries (t.code c.env) t.mentions

@[simp] def Expression.effect (e : Expression) : Effect :=
  .reading c.env e.tokens e.entries (e.code c.env) e.mentions

@[simp] def Operations.effect (o : Operations) : Effect :=
  .reading c.env o.tokens o.entries (o.code c.env) o.mentions

@[simp] def Arguments.effect (a : Arguments) : Effect :=
  .reading c.env a.tokens a.entries (a.code c.env) a.mentions

@[simp] def MoreArguments.effect (a : MoreArguments) : Effect :=
  .reading c.env a.tokens a.entries (a.code c.env) a.mentions

/-- The effect of a call behind its first name. -/
@[simp] def Call.effect (call : Call) : Effect :=
  .reading c.env call.tokens.tail call.entries.tail (call.code c.env) call.mentions

/-- The effect of a call behind the name of the subroutine. -/
@[simp] def callEffect (parens : Parens) (args : Arguments) (callee : Text) (receivers : Nat) :
    Effect :=
  .take parens.opening.token ++ (args.effect c ++ (.take parens.closing.token ++
    .emit (.call callee (receivers + args.count : Nat))))

@[simp] def Statement.effect (st : Statement) : Effect :=
  { tokens := st.tokens
    entries := st.entries
    code := st.code c.env c.nextIf c.nextWhile
    fault := fault c.env st.mentions
    context := .advance st.ifs st.whiles }

@[simp] def Statements.effect (sts : Statements) : Effect :=
  { tokens := sts.tokens
    entries := sts.entries
    code := sts.code c.env c.nextIf c.nextWhile
    fault := fault c.env sts.mentions
    context := .advance sts.ifs sts.whiles }

/-- The effect of a block in braces. -/
@[simp] def blockEffect (braces : Braces) (body : Statements) : Effect :=
  .take braces.opening.token ++ ((body.effect c).node .statements ++ .take braces.closing.token)

/-- The effect of a condition in parentheses. -/
@[simp] def conditionEffect (parens : Parens) (cond : Expression) : Effect :=
  .take parens.opening.token ++ (cond.effect c ++ .take parens.closing.token)

end

/-- The name that a call starts with. -/
def Call.name : Call → Name
  | .own f _ _ => f
  | .qualified x _ _ _ _ => x

end Tree

end Jack
