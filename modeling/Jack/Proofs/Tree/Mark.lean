import Jack.Proofs.Tree.Effect

/-! The tokens of a tree with the errors they lead to. A token that the grammar admits is wrong only as
the use of a name that stands for no variable or as an integer constant that is no word. -/

namespace Jack.Tree

/-- A token of a tree and the error it leads to, if any. -/
structure Mark where
  token : Token
  fault : Option CompileError

/-- A token that is not checked. -/
abbrev Mark.plain (t : Token) : Mark := ⟨t, none⟩

/-- No token leads to an error. -/
def Clean (w : List Mark) : Prop := ∀ m ∈ w, m.fault = none

@[simp] theorem clean_nil : Clean [] := by simp [Clean]

@[simp] theorem clean_cons {m : Mark} {w : List Mark} : Clean (m :: w) ↔ m.fault = none ∧ Clean w := by
  simp [Clean]

@[simp] theorem clean_append {u v : List Mark} : Clean (u ++ v) ↔ Clean u ∧ Clean v := by
  simp [Clean, or_imp, forall_and]

def Mention.token : Mention → Token
  | .use x => x
  | .constant t => t

def Mention.mark (env : Env) (m : Mention) : Mark := ⟨m.token, m.fault env⟩

@[simp] theorem Mention.token_mark (env : Env) (m : Mention) : (m.mark env).token = m.token := rfl

abbrev Leaf.mark {terminals : List Terminal} (l : Leaf terminals) : Mark := .plain l.token

/-- Tokens that are not checked. -/
def plain (ts : List Token) : List Mark := ts.map .plain

@[simp] theorem map_token_plain (ts : List Token) : (plain ts).map Mark.token = ts := by
  simp [plain, Function.comp_def]

@[simp] theorem plain_nil : plain [] = [] := rfl

@[simp] theorem plain_cons (t : Token) (ts : List Token) : plain (t :: ts) = .plain t :: plain ts := rfl

@[simp] theorem plain_append (as bs : List Token) : plain (as ++ bs) = plain as ++ plain bs :=
  List.map_append

@[simp] def Pair.marks {p q : Punct} (pair : Pair p q) (inner : List Mark) : List Mark :=
  pair.opening.mark :: inner ++ [pair.closing.mark]

/-! A name in front of a parenthesis or a dot is not checked. -/

mutual

@[simp] def Term.marks (env : Env) : Term → List Mark
  | .number constant => [(Mention.constant constant.token).mark env]
  | .string constant => [constant.mark]
  | .literal _ word => [word.mark]
  | .var x => [(Mention.use x.token).mark env]
  | .element x brackets index => (Mention.use x.token).mark env :: brackets.marks (index.marks env)
  | .call c => c.marks env
  | .paren parens e => parens.marks (e.marks env)
  | .unary _ sign t => sign.mark :: t.marks env

@[simp] def Expression.marks (env : Env) : Expression → List Mark
  | .mk first rest => first.marks env ++ rest.marks env

@[simp] def Operations.marks (env : Env) : Operations → List Mark
  | .nil => []
  | .cons _ sign t rest => sign.mark :: t.marks env ++ rest.marks env

@[simp] def Call.marks (env : Env) : Call → List Mark
  | .own f parens args => f.mark :: parens.marks (args.marks env)
  | .qualified x dot f parens args =>
    x.mark :: dot.mark :: f.mark :: parens.marks (args.marks env)

@[simp] def Arguments.marks (env : Env) : Arguments → List Mark
  | .none => []
  | .some first rest => first.marks env ++ rest.marks env

@[simp] def MoreArguments.marks (env : Env) : MoreArguments → List Mark
  | .nil => []
  | .cons comma e rest => comma.mark :: e.marks env ++ rest.marks env

end

mutual

@[simp] def Statement.marks (env : Env) : Statement → List Mark
  | .letVar word x eq value semicolon =>
    word.mark :: (Mention.use x.token).mark env :: eq.mark :: value.marks env ++ [semicolon.mark]
  | .letElement word x brackets index eq value semicolon =>
    word.mark :: (Mention.use x.token).mark env :: brackets.marks (index.marks env) ++
      eq.mark :: value.marks env ++ [semicolon.mark]
  | .ifThen word parens cond braces body =>
    word.mark :: parens.marks (cond.marks env) ++ braces.marks (body.marks env)
  | .ifElse word parens cond braces body elseWord elseBraces elseBody =>
    word.mark :: parens.marks (cond.marks env) ++ braces.marks (body.marks env) ++
      elseWord.mark :: elseBraces.marks (elseBody.marks env)
  | .while word parens cond braces body =>
    word.mark :: parens.marks (cond.marks env) ++ braces.marks (body.marks env)
  | .do word c semicolon => word.mark :: c.marks env ++ [semicolon.mark]
  | .return word semicolon => [word.mark, semicolon.mark]
  | .returnValue word value semicolon => word.mark :: value.marks env ++ [semicolon.mark]

@[simp] def Statements.marks (env : Env) : Statements → List Mark
  | .nil => []
  | .cons first rest => first.marks env ++ rest.marks env

end

/-- The marks of a subroutine whose statements are read in `env`. -/
def SubroutineDec.marks (env : Env) (d : SubroutineDec) : List Mark :=
  d.word.mark :: d.type.mark :: d.name.mark :: d.parens.marks (plain d.parameters.tokens) ++
    d.braces.marks (plain (d.vars.flatMap VarDec.tokens) ++ d.body.marks env)

def ClassDec.marks (c : ClassDec) : List Mark :=
  c.word.mark :: c.name.mark :: c.braces.marks (plain (c.vars.flatMap ClassVarDec.tokens) ++
    c.subroutines.flatMap fun d => d.marks (d.env c.name.lexeme c.declarations))

/-! The marks of a tree are those of its tokens. -/

section

variable (env : Env)

mutual

@[simp] theorem Term.map_token_marks : (t : Term) → (t.marks env).map Mark.token = t.tokens
  | .number _ => rfl
  | .string _ => rfl
  | .literal _ _ => rfl
  | .var _ => rfl
  | .element _ _ index => by simp [Mention.token, index.map_token_marks]
  | .call c => by simp [c.map_token_marks]
  | .paren _ e => by simp [e.map_token_marks]
  | .unary _ _ t => by simp [t.map_token_marks]

@[simp] theorem Expression.map_token_marks :
    (e : Expression) → (e.marks env).map Mark.token = e.tokens
  | .mk first rest => by simp [first.map_token_marks, rest.map_token_marks]

@[simp] theorem Operations.map_token_marks :
    (o : Operations) → (o.marks env).map Mark.token = o.tokens
  | .nil => rfl
  | .cons _ _ t rest => by simp [t.map_token_marks, rest.map_token_marks]

@[simp] theorem Call.map_token_marks : (c : Call) → (c.marks env).map Mark.token = c.tokens
  | .own _ _ args => by simp [args.map_token_marks]
  | .qualified _ _ _ _ args => by simp [args.map_token_marks]

@[simp] theorem Arguments.map_token_marks : (a : Arguments) → (a.marks env).map Mark.token = a.tokens
  | .none => rfl
  | .some first rest => by simp [first.map_token_marks, rest.map_token_marks]

@[simp] theorem MoreArguments.map_token_marks :
    (a : MoreArguments) → (a.marks env).map Mark.token = a.tokens
  | .nil => rfl
  | .cons _ e rest => by simp [e.map_token_marks, rest.map_token_marks]

end

mutual

@[simp] theorem Statement.map_token_marks :
    (st : Statement) → (st.marks env).map Mark.token = st.tokens
  | .letVar _ _ _ _ _ => by simp [Mention.token]
  | .letElement _ _ _ _ _ _ _ => by simp [Mention.token]
  | .ifThen _ _ _ _ body => by simp [body.map_token_marks]
  | .ifElse _ _ _ _ body _ _ elseBody => by simp [body.map_token_marks, elseBody.map_token_marks]
  | .while _ _ _ _ body => by simp [body.map_token_marks]
  | .do _ _ _ => by simp
  | .return _ _ => rfl
  | .returnValue _ _ _ => by simp

@[simp] theorem Statements.map_token_marks :
    (sts : Statements) → (sts.marks env).map Mark.token = sts.tokens
  | .nil => rfl
  | .cons first rest => by simp [first.map_token_marks, rest.map_token_marks]

end

@[simp] theorem SubroutineDec.map_token_marks (d : SubroutineDec) :
    (d.marks env).map Mark.token = d.tokens := by
  simp [marks, tokens]

end

@[simp] theorem ClassDec.map_token_marks (c : ClassDec) : c.marks.map Mark.token = c.tokens := by
  simp [marks, tokens, List.map_flatMap]

end Jack.Tree
