import Jack.Proofs.Independence

/-! Renaming a parameter or a local of a subroutine. Only names that stand for variables change: those that
are declared, assigned, read or indexed, and those before the dot of a call. Types, the names of subroutines
and all other subroutines stay. -/

namespace Jack

def Variable.rename (f : Text → Text) (v : Variable) : Variable := { v with name := f v.name }

def Declaration.rename (f : Text → Text) (d : Declaration) : Declaration := { d with name := f d.name }

namespace Tree

def Leaf.rename (f : Text → Text) (x : Name) : Name := ⟨{ x.token with lexeme := f x.lexeme }, x.terminal_mem⟩

mutual

@[simp] def Term.rename (f : Text → Text) : Term → Term
  | .number constant => .number constant
  | .string constant => .string constant
  | .literal l word => .literal l word
  | .var x => .var (x.rename f)
  | .element x brackets index => .element (x.rename f) brackets (index.rename f)
  | .call c => .call (c.rename f)
  | .paren parens e => .paren parens (e.rename f)
  | .unary op sign t => .unary op sign (t.rename f)

@[simp] def Expression.rename (f : Text → Text) : Expression → Expression
  | .mk first rest => .mk (first.rename f) (rest.rename f)

@[simp] def Operations.rename (f : Text → Text) : Operations → Operations
  | .nil => .nil
  | .cons op sign t rest => .cons op sign (t.rename f) (rest.rename f)

/-- The name of a subroutine stays, the name before it may be a variable. -/
@[simp] def Call.rename (f : Text → Text) : Call → Call
  | .own g parens args => .own g parens (args.rename f)
  | .qualified x dot g parens args => .qualified (x.rename f) dot g parens (args.rename f)

@[simp] def Arguments.rename (f : Text → Text) : Arguments → Arguments
  | .none => .none
  | .some first rest => .some (first.rename f) (rest.rename f)

@[simp] def MoreArguments.rename (f : Text → Text) : MoreArguments → MoreArguments
  | .nil => .nil
  | .cons comma e rest => .cons comma (e.rename f) (rest.rename f)

end

mutual

@[simp] def Statement.rename (f : Text → Text) : Statement → Statement
  | .letVar word x eq value semicolon => .letVar word (x.rename f) eq (value.rename f) semicolon
  | .letElement word x brackets index eq value semicolon =>
    .letElement word (x.rename f) brackets (index.rename f) eq (value.rename f) semicolon
  | .ifThen word parens cond braces body => .ifThen word parens (cond.rename f) braces (body.rename f)
  | .ifElse word parens cond braces body elseWord elseBraces elseBody =>
    .ifElse word parens (cond.rename f) braces (body.rename f) elseWord elseBraces (elseBody.rename f)
  | .while word parens cond braces body => .while word parens (cond.rename f) braces (body.rename f)
  | .do word c semicolon => .do word (c.rename f) semicolon
  | .return word semicolon => .return word semicolon
  | .returnValue word value semicolon => .returnValue word (value.rename f) semicolon

@[simp] def Statements.rename (f : Text → Text) : Statements → Statements
  | .nil => .nil
  | .cons first rest => .cons (first.rename f) (rest.rename f)

end

def VarNames.rename (f : Text → Text) (v : VarNames) : VarNames :=
  { v with
    first := v.first.rename f
    rest := v.rest.map fun r => { r with item := r.item.rename f } }

def VarDec.rename (f : Text → Text) (d : VarDec) : VarDec := { d with vars := d.vars.rename f }

def Parameter.rename (f : Text → Text) (p : Parameter) : Parameter := { p with name := p.name.rename f }

def ParameterList.rename (f : Text → Text) : ParameterList → ParameterList
  | .none => .none
  | .some first rest => .some (first.rename f) (rest.map fun r => { r with item := r.item.rename f })

/-- The subroutine with its variables renamed. -/
def SubroutineDec.rename (f : Text → Text) (d : SubroutineDec) : SubroutineDec :=
  { d with
    parameters := d.parameters.rename f
    vars := d.vars.map (VarDec.rename f)
    body := d.body.rename f }

/-- A renamed name stands for the renamed variable, or for none as before, and then it is the same. -/
structure Env.Renames (f : Text → Text) (env env' : Env) (x : Text) : Prop where
  find?_eq : env'.find? (f x) = (env.find? x).map (Variable.rename f)
  eq_of_none : env.find? x = none → f x = x

section

variable {f : Text → Text} {env env' : Env}

/-- In one class, every name among the tokens is renamed so. -/
structure Env.RenamesAll (f : Text → Text) (env env' : Env) (tokens : List Token) : Prop where
  className_eq : env'.className = env.className
  renames : ∀ t ∈ tokens, t.terminal = .ident → env.Renames f env' t.lexeme

namespace Env.Renames

variable {x : Text}

theorem get_eq (h : env.Renames f env' x) : env'.get (f x) = (env.get x).rename f := by
  unfold Env.get
  rw [h.find?_eq]
  cases env.find? x <;> rfl

theorem push_eq (h : env.Renames f env' x) : env'.push (f x) = env.push x := by
  unfold Env.push
  rw [h.get_eq]
  rfl

theorem pop_eq (h : env.Renames f env' x) : env'.pop (f x) = env.pop x := by
  unfold Env.pop
  rw [h.get_eq]
  rfl

theorem fault_use {x : Name} (h : env.Renames f env' x.lexeme) :
    Mention.fault env' (.use (x.rename f).token) = none ↔ Mention.fault env (.use x.token) = none := by
  simp [Mention.fault, Leaf.rename, h.find?_eq]

end Env.Renames

namespace Env.RenamesAll

variable {t : Token} {tokens more : List Token}

theorem of_cons (h : env.RenamesAll f env' (t :: tokens)) : env.RenamesAll f env' tokens :=
  ⟨h.className_eq, fun u hu => h.renames u (List.mem_cons_of_mem _ hu)⟩

theorem of_append (h : env.RenamesAll f env' (tokens ++ more)) :
    env.RenamesAll f env' tokens ∧ env.RenamesAll f env' more :=
  ⟨⟨h.className_eq, fun u hu => h.renames u (List.mem_append_left _ hu)⟩,
    ⟨h.className_eq, fun u hu => h.renames u (List.mem_append_right _ hu)⟩⟩

theorem of_pair {p q : Punct} {pair : Pair p q} (h : env.RenamesAll f env' (pair.tokens tokens)) :
    env.RenamesAll f env' tokens :=
  h.of_cons.of_append.1

theorem head {x : Name} (h : env.RenamesAll f env' (x.token :: tokens)) : env.Renames f env' x.lexeme :=
  h.renames x.token List.mem_cons_self x.terminal_eq

end Env.RenamesAll

theorem MoreArguments.count_rename (a : MoreArguments) : (a.rename f).count = a.count := by
  cases a with
  | nil => rfl
  | cons _ _ rest => exact congrArg (· + 1) rest.count_rename

theorem Arguments.count_rename (a : Arguments) : (a.rename f).count = a.count := by
  cases a with
  | none => rfl
  | some _ rest => exact congrArg (· + 1) rest.count_rename

/-! The code of a tree stays under a renaming that its names follow. -/

mutual

theorem Term.code_rename : (t : Term) → env.RenamesAll f env' t.tokens →
    (t.rename f).code env' = t.code env
  | .number _, _ => rfl
  | .string _, _ => rfl
  | .literal _ _, _ => rfl
  | .var x, h => by
    simpa [Leaf.rename] using h.head.push_eq
  | .element x brackets index, h => by
    have hx : env'.push (f x.lexeme) = env.push x.lexeme := h.head.push_eq
    have hi := index.code_rename h.of_cons.of_pair
    simp [Leaf.rename, hx, hi]
  | .call c, h => c.code_rename h
  | .paren _ e, h => e.code_rename h.of_pair
  | .unary op _ t, h => by
    simp [t.code_rename h.of_cons]

theorem Expression.code_rename : (e : Expression) → env.RenamesAll f env' e.tokens →
    (e.rename f).code env' = e.code env
  | .mk first rest, h => by
    simp [first.code_rename h.of_append.1, rest.code_rename h.of_append.2]

theorem Operations.code_rename : (o : Operations) → env.RenamesAll f env' o.tokens →
    (o.rename f).code env' = o.code env
  | .nil, _ => rfl
  | .cons _ _ t rest, h => by
    simp [t.code_rename h.of_cons.of_append.1, rest.code_rename h.of_cons.of_append.2]

theorem Call.code_rename : (c : Call) → env.RenamesAll f env' c.tokens →
    (c.rename f).code env' = c.code env
  | .own g _ args, h => by
    simp only [Call.rename, Call.code, args.code_rename h.of_cons.of_pair, args.count_rename, h.className_eq]
  | .qualified x _ g _ args, h => by
    have ha := args.code_rename h.of_cons.of_cons.of_cons.of_pair
    have hx : env.Renames f env' x.lexeme := h.head
    simp only [Call.rename, Call.code, Leaf.rename, hx.find?_eq, ha, args.count_rename]
    -- A name that stands for a variable is gone from the code, and any other stays what it was.
    cases hf : env.find? x.lexeme with
    | none => simp [hx.eq_of_none hf]
    | some v => simp [Variable.rename]

theorem Arguments.code_rename : (a : Arguments) → env.RenamesAll f env' a.tokens →
    (a.rename f).code env' = a.code env
  | .none, _ => rfl
  | .some first rest, h => by
    simp [first.code_rename h.of_append.1, rest.code_rename h.of_append.2]

theorem MoreArguments.code_rename : (a : MoreArguments) → env.RenamesAll f env' a.tokens →
    (a.rename f).code env' = a.code env
  | .nil, _ => rfl
  | .cons _ e rest, h => by
    simp [e.code_rename h.of_cons.of_append.1, rest.code_rename h.of_cons.of_append.2]

end

/-! A tree has a fault under the renaming exactly if it had one before. -/

mutual

theorem Term.fault_rename : (t : Term) → env.RenamesAll f env' t.tokens →
    (fault env' (t.rename f).mentions = none ↔ fault env t.mentions = none)
  | .number _, _ => Iff.rfl
  | .string _, _ => Iff.rfl
  | .literal _ _, _ => Iff.rfl
  | .var x, h => by
    simpa using h.head.fault_use
  | .element x _ index, h => by
    have hi := index.fault_rename h.of_cons.of_pair
    have hx := h.head.fault_use
    simp only [Term.rename, Term.mentions, fault_cons, Option.or_eq_none_iff, hi, hx]
  | .call c, h => c.fault_rename h
  | .paren _ e, h => e.fault_rename h.of_pair
  | .unary _ _ t, h => t.fault_rename h.of_cons

theorem Expression.fault_rename : (e : Expression) → env.RenamesAll f env' e.tokens →
    (fault env' (e.rename f).mentions = none ↔ fault env e.mentions = none)
  | .mk first rest, h => by
    simp [first.fault_rename h.of_append.1, rest.fault_rename h.of_append.2]

theorem Operations.fault_rename : (o : Operations) → env.RenamesAll f env' o.tokens →
    (fault env' (o.rename f).mentions = none ↔ fault env o.mentions = none)
  | .nil, _ => Iff.rfl
  | .cons _ _ t rest, h => by
    simp [t.fault_rename h.of_cons.of_append.1, rest.fault_rename h.of_cons.of_append.2]

theorem Call.fault_rename : (c : Call) → env.RenamesAll f env' c.tokens →
    (fault env' (c.rename f).mentions = none ↔ fault env c.mentions = none)
  | .own _ _ args, h => args.fault_rename h.of_cons.of_pair
  | .qualified _ _ _ _ args, h => args.fault_rename h.of_cons.of_cons.of_cons.of_pair

theorem Arguments.fault_rename : (a : Arguments) → env.RenamesAll f env' a.tokens →
    (fault env' (a.rename f).mentions = none ↔ fault env a.mentions = none)
  | .none, _ => Iff.rfl
  | .some first rest, h => by
    simp [first.fault_rename h.of_append.1, rest.fault_rename h.of_append.2]

theorem MoreArguments.fault_rename : (a : MoreArguments) → env.RenamesAll f env' a.tokens →
    (fault env' (a.rename f).mentions = none ↔ fault env a.mentions = none)
  | .nil, _ => Iff.rfl
  | .cons _ e rest, h => by
    simp [e.fault_rename h.of_cons.of_append.1, rest.fault_rename h.of_cons.of_append.2]

end

mutual

theorem Statement.ifs_rename : (st : Statement) → (st.rename f).ifs = st.ifs
  | .letVar .. | .letElement .. | .do .. | .return .. | .returnValue .. => rfl
  | .ifThen _ _ _ _ body => by
    simp [body.ifs_rename]
  | .ifElse _ _ _ _ body _ _ elseBody => by
    simp [body.ifs_rename, elseBody.ifs_rename]
  | .while _ _ _ _ body => body.ifs_rename

theorem Statements.ifs_rename : (sts : Statements) → (sts.rename f).ifs = sts.ifs
  | .nil => rfl
  | .cons first rest => by
    simp [first.ifs_rename, rest.ifs_rename]

end

mutual

theorem Statement.whiles_rename : (st : Statement) → (st.rename f).whiles = st.whiles
  | .letVar .. | .letElement .. | .do .. | .return .. | .returnValue .. => rfl
  | .ifThen _ _ _ _ body => body.whiles_rename
  | .ifElse _ _ _ _ body _ _ elseBody => by
    simp [body.whiles_rename, elseBody.whiles_rename]
  | .while _ _ _ _ body => by
    simp [body.whiles_rename]

theorem Statements.whiles_rename : (sts : Statements) → (sts.rename f).whiles = sts.whiles
  | .nil => rfl
  | .cons first rest => by
    simp [first.whiles_rename, rest.whiles_rename]

end

mutual

theorem Statement.code_rename : (st : Statement) → (i w : Nat) → env.RenamesAll f env' st.tokens →
    (st.rename f).code env' i w = st.code env i w
  | .letVar _ x _ value _, _, _, h => by
    have hx : env'.pop (x.rename f).lexeme = env.pop x.lexeme := h.of_cons.head.pop_eq
    simp [hx, value.code_rename h.of_cons.of_cons.of_cons.of_append.1]
  | .letElement _ x _ index _ value _, _, _, h => by
    have hx : env'.push (x.rename f).lexeme = env.push x.lexeme := h.of_cons.head.push_eq
    have ht := h.of_cons.of_cons.of_append.1.of_append
    simp [hx, index.code_rename ht.1.of_pair, value.code_rename ht.2.of_cons]
  | .ifThen _ _ cond _ body, i, w, h => by
    have ht := h.of_cons.of_append
    simp [cond.code_rename ht.1.of_pair, body.code_rename (i + 1) w ht.2.of_pair]
  | .ifElse _ _ cond _ body _ _ elseBody, i, w, h => by
    have ht := h.of_cons.of_append
    simp [cond.code_rename ht.1.of_append.1.of_pair, body.code_rename (i + 1) w ht.1.of_append.2.of_pair,
      elseBody.code_rename _ _ ht.2.of_cons.of_pair, body.ifs_rename, body.whiles_rename]
  | .while _ _ cond _ body, i, w, h => by
    have ht := h.of_cons.of_append
    simp [cond.code_rename ht.1.of_pair, body.code_rename i (w + 1) ht.2.of_pair]
  | .do _ c _, _, _, h => by
    simp [c.code_rename h.of_cons.of_append.1]
  | .return _ _, _, _, _ => rfl
  | .returnValue _ value _, _, _, h => by
    simp [value.code_rename h.of_cons.of_append.1]

theorem Statements.code_rename : (sts : Statements) → (i w : Nat) → env.RenamesAll f env' sts.tokens →
    (sts.rename f).code env' i w = sts.code env i w
  | .nil, _, _, _ => rfl
  | .cons first rest, i, w, h => by
    simp [first.code_rename i w h.of_append.1, rest.code_rename _ _ h.of_append.2, first.ifs_rename,
      first.whiles_rename]

end

mutual

theorem Statement.fault_rename : (st : Statement) → env.RenamesAll f env' st.tokens →
    (fault env' (st.rename f).mentions = none ↔ fault env st.mentions = none)
  | .letVar _ x _ value _, h => by
    have hv := value.fault_rename h.of_cons.of_cons.of_cons.of_append.1
    simp [h.of_cons.head.fault_use, hv]
  | .letElement _ x _ index _ value _, h => by
    have ht := h.of_cons.of_cons.of_append.1.of_append
    have hi := index.fault_rename ht.1.of_pair
    have hv := value.fault_rename ht.2.of_cons
    simp [h.of_cons.head.fault_use, hi, hv]
  | .ifThen _ _ cond _ body, h => by
    have ht := h.of_cons.of_append
    simp [cond.fault_rename ht.1.of_pair, body.fault_rename ht.2.of_pair]
  | .ifElse _ _ cond _ body _ _ elseBody, h => by
    have ht := h.of_cons.of_append
    simp [cond.fault_rename ht.1.of_append.1.of_pair, body.fault_rename ht.1.of_append.2.of_pair,
      elseBody.fault_rename ht.2.of_cons.of_pair]
  | .while _ _ cond _ body, h => by
    have ht := h.of_cons.of_append
    simp [cond.fault_rename ht.1.of_pair, body.fault_rename ht.2.of_pair]
  | .do _ c _, h => c.fault_rename h.of_cons.of_append.1
  | .return _ _, _ => Iff.rfl
  | .returnValue _ value _, h => value.fault_rename h.of_cons.of_append.1

theorem Statements.fault_rename : (sts : Statements) → env.RenamesAll f env' sts.tokens →
    (fault env' (sts.rename f).mentions = none ↔ fault env sts.mentions = none)
  | .nil, _ => Iff.rfl
  | .cons first rest, h => by
    simp [first.fault_rename h.of_append.1, rest.fault_rename h.of_append.2]

end

end

end Tree

namespace Declaration

variable {f : Text → Text} {x : Text} {ds : List Declaration}

/-- A name that stays stands for a variable that stays. -/
theorem map_rename_find? (h : f x = x) (ds : List Declaration) :
    (find? x ds).map (Variable.rename f) = find? x ds := by
  induction ds with
  | nil => rfl
  | cons d ds ih =>
    unfold find?
    by_cases hd : d.name = x
    · rw [if_pos hd]
      simp [place, Variable.rename, hd, h]
    · rw [if_neg hd]
      exact ih

/-- Renamed declarations behind earlier ones that keep their names: a renamed name stands for the renamed
variable, as long as no other name was renamed to it and it is not left to the earlier ones. -/
theorem find?_rename (hf : ∀ d ∈ ds, f d.name = f x → d.name = x)
    (hx : x ∈ ds.map Declaration.name ∨ f x = x) (earlier : List Declaration) :
    find? (f x) (ds.map (Declaration.rename f) ++ earlier) =
      (find? x (ds ++ earlier)).map (Variable.rename f) := by
  induction ds with
  | nil =>
    have hx : f x = x := hx.resolve_left List.not_mem_nil
    rw [List.map_nil, List.nil_append, map_rename_find? hx, hx]
  | cons d ds ih =>
    have hcount : ∀ storage, (ds.map (Declaration.rename f) ++ earlier).countP (·.storage = storage) =
        (ds ++ earlier).countP (·.storage = storage) := by
      intro storage
      rw [List.countP_append, List.countP_append, List.countP_map]
      rfl
    rw [List.map_cons, List.cons_append, List.cons_append]
    unfold find?
    by_cases hd : d.name = x
    · have hr : (d.rename f).name = f x := congrArg f hd
      rw [if_pos hr, if_pos hd]
      simp only [place, hcount]
      rfl
    · have hr : (d.rename f).name ≠ f x := fun he => hd (hf d List.mem_cons_self he)
      rw [if_neg hr, if_neg hd]
      refine ih (fun e he => hf e (List.mem_cons_of_mem _ he)) (hx.imp_left fun hm => ?_)
      exact (List.mem_cons.mp hm).resolve_left (Ne.symm hd)

end Declaration

namespace Tree

/-- The map that takes `x` to `y` and keeps all else. -/
def replacing (x y z : Text) : Text := if z = x then y else z

theorem VarNames.names_rename (f : Text → Text) (v : VarNames) :
    (v.rename f).names = v.names.map (Leaf.rename f) := by
  simp [VarNames.rename, VarNames.names]

theorem VarNames.token_mem_tokens {v : VarNames} {x : Name} (h : x ∈ v.names) : x.token ∈ v.tokens := by
  unfold VarNames.tokens
  rcases List.mem_cons.mp h with rfl | h
  · simp
  · obtain ⟨r, hr, rfl⟩ := List.mem_map.mp h
    have hm : r.item.token ∈ v.rest.flatMap fun f => [f.comma.token, f.item.token] :=
      List.mem_flatMap.mpr ⟨r, hr, by simp⟩
    simp [-List.mem_flatMap, hm]

theorem VarDec.declarations_rename (f : Text → Text) (v : VarDec) :
    (v.rename f).declarations = v.declarations.map (Declaration.rename f) := by
  simp only [VarDec.declarations, VarNames.declarations, VarDec.rename, VarNames.names_rename, List.map_map]
  rfl

theorem ParameterList.parameters_rename (f : Text → Text) (ps : ParameterList) :
    (ps.rename f).parameters = ps.parameters.map (Parameter.rename f) := by
  cases ps <;> simp [ParameterList.rename, ParameterList.parameters]

theorem ParameterList.token_mem_tokens {ps : ParameterList} {p : Parameter} (h : p ∈ ps.parameters) :
    p.name.token ∈ ps.tokens := by
  cases ps with
  | none => cases h
  | some first rest =>
    unfold ParameterList.tokens
    rcases List.mem_cons.mp h with rfl | h
    · simp [Parameter.tokens]
    · obtain ⟨r, hr, rfl⟩ := List.mem_map.mp h
      have hm : r.item.name.token ∈ rest.flatMap fun f => f.comma.token :: f.item.tokens :=
        List.mem_flatMap.mpr ⟨r, hr, by simp [Parameter.tokens]⟩
      exact List.mem_append_right _ hm

namespace SubroutineDec

/-- The parameters and the locals. -/
def named (d : SubroutineDec) : List Declaration :=
  d.parameters.parameters.map Parameter.declaration ++ d.localDeclarations

variable (d : SubroutineDec)

theorem declarations_eq (className : Text) :
    d.declarations className = d.kind.receiver className ++ d.named := by
  simp [declarations, argumentDeclarations, named]

theorem map_name_named : d.named.map Declaration.name = d.parameterNames ++ d.localNames := by
  rw [named, List.map_append, d.map_name_localDeclarations, List.map_map]
  rfl

theorem named_rename (f : Text → Text) : (d.rename f).named = d.named.map (Declaration.rename f) := by
  simp only [named, rename, localDeclarations, ParameterList.parameters_rename, List.map_append, List.map_map,
    List.flatMap_map, VarDec.declarations_rename, List.map_flatMap]
  rfl

theorem locals_rename (f : Text → Text) : (d.rename f).locals = d.locals := by
  simp [locals, localNames, rename, VarDec.rename, VarNames.names_rename, List.flatMap_map, Function.comp_def]

/-- Every parameter and every local is named by a token. -/
theorem exists_token_of_mem_named {n : Declaration} (h : n ∈ d.named) :
    ∃ t ∈ d.tokens, t.terminal = .ident ∧ t.lexeme = n.name := by
  unfold tokens
  rcases List.mem_append.mp h with h | h
  · obtain ⟨p, hp, rfl⟩ := List.mem_map.mp h
    have ht : p.name.token ∈ d.parameters.tokens := ParameterList.token_mem_tokens hp
    exact ⟨p.name.token, by simp [ht], p.name.terminal_eq, rfl⟩
  · obtain ⟨v, hv, h⟩ := List.mem_flatMap.mp h
    obtain ⟨x, hx, rfl⟩ := List.mem_map.mp h
    have ht : x.token ∈ d.vars.flatMap VarDec.tokens :=
      List.mem_flatMap.mpr ⟨v, hv, List.mem_cons_of_mem _ (VarNames.token_mem_tokens hx)⟩
    exact ⟨x.token, by simp [-List.mem_flatMap, ht], x.terminal_eq, rfl⟩

theorem mem_tokens_of_mem_body {t : Token} (h : t ∈ d.body.tokens) : t ∈ d.tokens := by
  simp [tokens, h]

variable {d} {x y : Text} (hx : x ∈ d.parameterNames ∨ x ∈ d.localNames)
  (hy : ∀ t ∈ d.tokens, t.terminal = .ident → t.lexeme ≠ y)

include hx hy

/-- A declared name may be replaced by one that the subroutine does not hold. -/
theorem renames_replacing (className : Text) (ofClass : List Declaration) {z : Text} (hz : z ≠ y) :
    (d.env className ofClass).Renames (replacing x y) ((d.rename (replacing x y)).env className ofClass) z := by
  have hnamed : ∀ n ∈ d.named.reverse, replacing x y n.name = replacing x y z → n.name = z := by
    intro n hn he
    obtain ⟨t, ht, hi, hl⟩ := d.exists_token_of_mem_named (List.mem_reverse.mp hn)
    have hny : n.name ≠ y := hl ▸ hy t ht hi
    unfold replacing at he
    by_cases hnx : n.name = x <;> by_cases hzx : z = x
    · rw [hnx, hzx]
    · rw [if_pos hnx, if_neg hzx] at he
      exact absurd he.symm hz
    · rw [if_neg hnx, if_pos hzx] at he
      exact absurd he hny
    · rwa [if_neg hnx, if_neg hzx] at he
  have hmem : x ∈ d.named.reverse.map Declaration.name := by
    rw [List.map_reverse, List.mem_reverse, d.map_name_named, List.mem_append]
    exact hx
  have hfix : z ≠ x → replacing x y z = z := fun h => if_neg h
  have hor : z ∈ d.named.reverse.map Declaration.name ∨ replacing x y z = z := by
    by_cases hzx : z = x
    · exact .inl (hzx ▸ hmem)
    · exact .inr (hfix hzx)
  have hown := Declaration.find?_rename hnamed hor (d.kind.receiver className).reverse
  have hfind : (d.env className ofClass).find? z =
      (Declaration.find? z (d.named.reverse ++ (d.kind.receiver className).reverse)).or
        (Declaration.find? z ofClass.reverse) := by
    simp only [env, Env.ofDeclarations, declarations_eq, List.reverse_append]
  have hfind' : ((d.rename (replacing x y)).env className ofClass).find? (replacing x y z) =
      ((Declaration.find? z (d.named.reverse ++ (d.kind.receiver className).reverse)).map
        (Variable.rename (replacing x y))).or (Declaration.find? (replacing x y z) ofClass.reverse) := by
    simp only [env, Env.ofDeclarations, declarations_eq, named_rename, List.reverse_append, ← List.map_reverse]
    rw [← hown]
    rfl
  by_cases hzx : z = x
  · -- The class is not asked for a name that the subroutine declares.
    obtain ⟨v, hv⟩ :
        ∃ v, Declaration.find? z (d.named.reverse ++ (d.kind.receiver className).reverse) = some v := by
      rw [← Option.isSome_iff_exists, Declaration.isSome_find?, List.map_append, hzx]
      exact List.mem_append_left _ hmem
    rw [hv] at hfind hfind'
    refine ⟨?_, fun hn => ?_⟩
    · rw [hfind, hfind']
      rfl
    · rw [hfind] at hn
      cases hn
  · refine ⟨?_, fun _ => hfix hzx⟩
    have hclass := Declaration.map_rename_find? (hfix hzx) ofClass.reverse
    rw [hfind, hfind', Option.map_or, hclass, hfix hzx]

theorem renamesAll_replacing (className : Text) (ofClass : List Declaration) :
    (d.env className ofClass).RenamesAll (replacing x y) ((d.rename (replacing x y)).env className ofClass)
      d.body.tokens :=
  ⟨rfl, fun t ht hi => renames_replacing hx hy className ofClass (hy t (d.mem_tokens_of_mem_body ht) hi)⟩

theorem code_replacing (className : Text) (ofClass : List Declaration) :
    (d.rename (replacing x y)).code className ofClass = d.code className ofClass := by
  have hb := d.body.code_rename 0 0 (renamesAll_replacing hx hy className ofClass)
  unfold code
  rw [locals_rename]
  exact congrArg (fun body => _ :: (_ ++ body)) hb

theorem fault_replacing (className : Text) (ofClass : List Declaration) :
    ((d.rename (replacing x y)).effect className ofClass).fault = none ↔
      (d.effect className ofClass).fault = none :=
  d.body.fault_rename (renamesAll_replacing hx hy className ofClass)

end SubroutineDec

theorem ClassDec.fault_effect_eq_none_iff_forall (c : ClassDec) :
    c.effect.fault = none ↔
      ∀ d ∈ c.subroutines, (d.effect c.name.lexeme c.declarations).fault = none := by
  simp [ClassDec.effect]

end Tree

open Jack.Tree

/-- Replacing a parameter or local of one subroutine of a class by a name that this subroutine does not hold
gives a class that compiles as well, to the same instructions. -/
theorem compile_replacing {source : Source} {u : Compiled} (h : (compile source).outcome = .ok u) :
    (∃ c : ClassDec, c.tokens = source.beforeEnd) ∧
      ∀ (c : ClassDec) (before : List SubroutineDec) (d : SubroutineDec) (after : List SubroutineDec),
        c.tokens = source.beforeEnd → c.subroutines = before ++ d :: after →
        ∀ x y : Text, x ∈ d.parameterNames ∨ x ∈ d.localNames →
          (∀ t ∈ d.tokens, t.terminal = .ident → t.lexeme ≠ y) →
          ∀ source' : Source,
            source'.beforeEnd =
              { c with subroutines := before ++ d.rename (replacing x y) :: after }.tokens →
            ∃ u', (compile source').outcome = .ok u' ∧ u'.className = u.className ∧
              u'.instructions = u.instructions := by
  obtain ⟨c₀, ht₀, -⟩ := exists_class_of_ok h
  refine ⟨⟨c₀, ht₀⟩, fun c before d after ht hd x y hx hy source' hs => ?_⟩
  let c' : ClassDec := { c with subroutines := before ++ d.rename (replacing x y) :: after }
  have ho := outcome_of_tokens c ht
  rw [h] at ho
  cases hf : c.effect.fault with
  | some e =>
    rw [hf] at ho
    cases ho
  | none =>
    rw [hf] at ho
    have hu : u = ⟨c.name.lexeme, c.code, c.entries⟩ := Except.ok.inj ho
    have hcode : c'.code = c.code := by
      have hr := d.code_replacing hx hy c.name.lexeme c.declarations
      unfold ClassDec.code
      rw [hd, List.flatMap_append, List.flatMap_append, List.flatMap_cons, List.flatMap_cons]
      exact congrArg (fun code => _ ++ (code ++ _)) hr
    have hfault : c'.effect.fault = none := by
      have hr := d.fault_replacing hx hy c.name.lexeme c.declarations
      rw [c.fault_effect_eq_none_iff_forall, hd, List.forall_mem_append, List.forall_mem_cons] at hf
      rw [c'.fault_effect_eq_none_iff_forall, List.forall_mem_append, List.forall_mem_cons]
      exact ⟨hf.1, hr.mpr hf.2.1, hf.2.2⟩
    have ho' := outcome_of_tokens c' hs.symm
    rw [hfault] at ho'
    rw [hu]
    exact ⟨_, ho', rfl, hcode⟩

namespace Counter

/-- class Counter { field int n; method int add(int times) … method void reset … } -/
def renamed : ClassDec := { both with subroutines := [add.rename (replacing "k" "times"), reset] }

end Counter

open Counter in
theorem compile_replacing_counter :
    renamed.tokens ≠ both.tokens ∧
      ∃ u u', (compile (.replay both.tokens)).outcome = .ok u ∧
        (compile (.replay renamed.tokens)).outcome = .ok u' ∧ u'.instructions = u.instructions := by
  have ho := both.outcome_replay fault_both
  obtain ⟨u', hu', -, hi⟩ := (compile_replacing ho).2 both [] add [reset]
    (beforeEnd_of_tokens both rfl).symm rfl "k" "times" (by decide) (by decide)
    (.replay renamed.tokens) (beforeEnd_of_tokens renamed rfl)
  exact ⟨by decide, _, u', ho, hu', hi⟩

end Jack
