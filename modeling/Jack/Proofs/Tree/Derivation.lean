import Jack.Proofs.Tree.Class

/-! Derivations as a trace shows them: the nonterminals that have a tag of their own, over the tokens.
Subroutine calls, types and names are no level of such a tree. -/

namespace Jack

inductive Derivation (α : Type) where
  | leaf (a : α)
  | node (n : Nonterminal) (children : List (Derivation α))

namespace Derivation

variable {α β : Type}

mutual

def map (f : α → β) : Derivation α → Derivation β
  | .leaf a => .leaf (f a)
  | .node n children => .node n (mapAll f children)

def mapAll (f : α → β) : List (Derivation α) → List (Derivation β)
  | [] => []
  | d :: rest => d.map f :: mapAll f rest

end

mutual

/-- What a trace records of a derivation. -/
def entries : Derivation Token → List Trace.Entry
  | .leaf t => [.terminal t]
  | .node n children => Trace.node n (entriesAll children)

def entriesAll : List (Derivation Token) → List Trace.Entry
  | [] => []
  | d :: rest => d.entries ++ entriesAll rest

end

theorem entriesAll_eq_flatMap (ds : List (Derivation Token)) : entriesAll ds = ds.flatMap entries := by
  induction ds with
  | nil => rfl
  | cons d ds ih => rw [entriesAll, ih, List.flatMap_cons]

@[simp] theorem entries_leaf (t : Token) : (leaf t).entries = [.terminal t] := by
  rw [entries]

@[simp] theorem entries_node (n : Nonterminal) (children : List (Derivation Token)) :
    (node n children).entries = Trace.node n (children.flatMap entries) := by
  rw [entries, entriesAll_eq_flatMap]

end Derivation

namespace Tree

@[simp] def Leaf.derivation {terminals : List Terminal} (l : Leaf terminals) : Derivation Token :=
  .leaf l.token

@[simp] def Pair.derivations {p q : Punct} (pair : Pair p q) (inner : List (Derivation Token)) :
    List (Derivation Token) :=
  pair.opening.derivation :: inner ++ [pair.closing.derivation]

mutual

@[simp] def Term.derivation : Term → Derivation Token
  | .number constant => .node .term [constant.derivation]
  | .string constant => .node .term [constant.derivation]
  | .literal _ word => .node .term [word.derivation]
  | .var x => .node .term [x.derivation]
  | .element x brackets index => .node .term (x.derivation :: brackets.derivations [index.derivation])
  | .call c => .node .term c.derivations
  | .paren parens e => .node .term (parens.derivations [e.derivation])
  | .unary _ sign t => .node .term [sign.derivation, t.derivation]

@[simp] def Expression.derivation : Expression → Derivation Token
  | .mk first rest => .node .expression (first.derivation :: rest.derivations)

@[simp] def Operations.derivations : Operations → List (Derivation Token)
  | .nil => []
  | .cons _ sign t rest => sign.derivation :: t.derivation :: rest.derivations

@[simp] def Call.derivations : Call → List (Derivation Token)
  | .own f parens args => f.derivation :: parens.derivations [args.derivation]
  | .qualified x dot f parens args =>
    x.derivation :: dot.derivation :: f.derivation :: parens.derivations [args.derivation]

@[simp] def Arguments.derivation : Arguments → Derivation Token
  | .none => .node .expressionList []
  | .some first rest => .node .expressionList (first.derivation :: rest.derivations)

@[simp] def MoreArguments.derivations : MoreArguments → List (Derivation Token)
  | .nil => []
  | .cons comma e rest => comma.derivation :: e.derivation :: rest.derivations

end

mutual

@[simp] def Statement.derivation : Statement → Derivation Token
  | .letVar word x eq value semicolon => .node .letStatement
      [word.derivation, x.derivation, eq.derivation, value.derivation, semicolon.derivation]
  | .letElement word x brackets index eq value semicolon => .node .letStatement
      (word.derivation :: x.derivation :: brackets.derivations [index.derivation] ++
        [eq.derivation, value.derivation, semicolon.derivation])
  | .ifThen word parens cond braces body => .node .ifStatement
      (word.derivation :: parens.derivations [cond.derivation] ++
        braces.derivations [.node .statements body.derivations])
  | .ifElse word parens cond braces body elseWord elseBraces elseBody => .node .ifStatement
      (word.derivation :: parens.derivations [cond.derivation] ++
        braces.derivations [.node .statements body.derivations] ++
        elseWord.derivation :: elseBraces.derivations [.node .statements elseBody.derivations])
  | .while word parens cond braces body => .node .whileStatement
      (word.derivation :: parens.derivations [cond.derivation] ++
        braces.derivations [.node .statements body.derivations])
  | .do word c semicolon => .node .doStatement
      (word.derivation :: c.derivations ++ [semicolon.derivation])
  | .return word semicolon => .node .returnStatement [word.derivation, semicolon.derivation]
  | .returnValue word value semicolon => .node .returnStatement
      [word.derivation, value.derivation, semicolon.derivation]

@[simp] def Statements.derivations : Statements → List (Derivation Token)
  | .nil => []
  | .cons first rest => first.derivation :: rest.derivations

end

def VarNames.derivations (v : VarNames) : List (Derivation Token) :=
  v.type.derivation :: v.first.derivation ::
    v.rest.flatMap (fun f => [f.comma.derivation, f.item.derivation]) ++ [v.semicolon.derivation]

def ClassVarDec.derivation (d : ClassVarDec) : Derivation Token :=
  .node .classVarDec (d.word.derivation :: d.vars.derivations)

def VarDec.derivation (d : VarDec) : Derivation Token :=
  .node .varDec (d.word.derivation :: d.vars.derivations)

def Parameter.derivations (p : Parameter) : List (Derivation Token) :=
  [p.type.derivation, p.name.derivation]

def ParameterList.derivation : ParameterList → Derivation Token
  | .none => .node .parameterList []
  | .some first rest => .node .parameterList
      (first.derivations ++ rest.flatMap fun f => f.comma.derivation :: f.item.derivations)

def SubroutineDec.derivation (d : SubroutineDec) : Derivation Token :=
  .node .subroutineDec
    (d.word.derivation :: d.type.derivation :: d.name.derivation ::
      d.parens.derivations [d.parameters.derivation] ++
      [.node .subroutineBody (d.braces.derivations
        (d.vars.map VarDec.derivation ++ [.node .statements d.body.derivations]))])

def ClassDec.derivation (c : ClassDec) : Derivation Token :=
  .node .classDec (c.word.derivation :: c.name.derivation :: c.braces.derivations
    (c.vars.map ClassVarDec.derivation ++ c.subroutines.map SubroutineDec.derivation))

/-! A trace records the derivation. -/

mutual

theorem Term.entries_derivation : (t : Term) → t.derivation.entries = t.entries
  | .number _ => by simp
  | .string _ => by simp
  | .literal _ _ => by simp
  | .var _ => by simp
  | .element _ _ index => by simp [index.entries_derivation]
  | .call c => by simp [c.entries_derivations]
  | .paren _ e => by simp [e.entries_derivation]
  | .unary _ _ t => by simp [t.entries_derivation]

theorem Expression.entries_derivation : (e : Expression) → e.derivation.entries = e.entries
  | .mk first rest => by simp [first.entries_derivation, rest.entries_derivations]

theorem Operations.entries_derivations :
    (o : Operations) → o.derivations.flatMap Derivation.entries = o.entries
  | .nil => rfl
  | .cons _ _ t rest => by simp [t.entries_derivation, rest.entries_derivations]

theorem Call.entries_derivations : (c : Call) → c.derivations.flatMap Derivation.entries = c.entries
  | .own _ _ args => by simp [args.entries_derivation]
  | .qualified _ _ _ _ args => by simp [args.entries_derivation]

theorem Arguments.entries_derivation : (a : Arguments) → a.derivation.entries = a.entries
  | .none => by simp
  | .some first rest => by simp [first.entries_derivation, rest.entries_derivations]

theorem MoreArguments.entries_derivations :
    (a : MoreArguments) → a.derivations.flatMap Derivation.entries = a.entries
  | .nil => rfl
  | .cons _ e rest => by simp [e.entries_derivation, rest.entries_derivations]

end

mutual

theorem Statement.entries_derivation : (st : Statement) → st.derivation.entries = st.entries
  | .letVar _ _ _ value _ => by simp [value.entries_derivation]
  | .letElement _ _ _ index _ value _ => by
    simp [index.entries_derivation, value.entries_derivation]
  | .ifThen _ _ cond _ body => by simp [cond.entries_derivation, body.entries_derivations]
  | .ifElse _ _ cond _ body _ _ elseBody => by
    simp [cond.entries_derivation, body.entries_derivations, elseBody.entries_derivations]
  | .while _ _ cond _ body => by simp [cond.entries_derivation, body.entries_derivations]
  | .do _ c _ => by simp [c.entries_derivations]
  | .return _ _ => by simp
  | .returnValue _ value _ => by simp [value.entries_derivation]

theorem Statements.entries_derivations :
    (sts : Statements) → sts.derivations.flatMap Derivation.entries = sts.entries
  | .nil => rfl
  | .cons first rest => by simp [first.entries_derivation, rest.entries_derivations]

end

theorem VarNames.entries_derivations (v : VarNames) :
    v.derivations.flatMap Derivation.entries = v.entries := by
  simp [VarNames.derivations, VarNames.entries, List.flatMap_assoc]

theorem ClassVarDec.entries_derivation (d : ClassVarDec) : d.derivation.entries = d.entries := by
  simp [ClassVarDec.derivation, ClassVarDec.entries, d.vars.entries_derivations]

theorem VarDec.entries_derivation (d : VarDec) : d.derivation.entries = d.entries := by
  simp [VarDec.derivation, VarDec.entries, d.vars.entries_derivations]

theorem ParameterList.entries_derivation (ps : ParameterList) : ps.derivation.entries = ps.entries := by
  cases ps with
  | none => simp [ParameterList.derivation, ParameterList.entries]
  | some first rest =>
    simp [ParameterList.derivation, ParameterList.entries, Parameter.derivations, Parameter.entries,
      List.flatMap_assoc]

theorem SubroutineDec.entries_derivation (d : SubroutineDec) : d.derivation.entries = d.entries := by
  simp [SubroutineDec.derivation, SubroutineDec.entries, d.parameters.entries_derivation,
    d.body.entries_derivations, List.flatMap_map, VarDec.entries_derivation]

theorem ClassDec.entries_derivation (c : ClassDec) : c.derivation.entries = c.entries := by
  simp [ClassDec.derivation, ClassDec.entries, List.flatMap_map, ClassVarDec.entries_derivation,
    SubroutineDec.entries_derivation]

end Tree

end Jack
