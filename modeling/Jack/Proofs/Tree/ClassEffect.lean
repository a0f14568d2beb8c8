import Jack.Proofs.Tree.Effect

/-! The effect of reading declarations. A subroutine is read in the context that the declarations of its
class have made, and leaves that part of it as it was. -/

namespace Jack

namespace Tree.SubroutineDec

theorem ofClass_of_mem_declarations {d : SubroutineDec} {className : Text} {x : Declaration}
    (h : x ∈ d.declarations className) : x.storage.ofClass = false := by
  obtain h | h := List.mem_append.mp h
  · rw [d.storage_of_mem_arguments h]
    rfl
  · rw [d.storage_of_mem_locals h]
    rfl

theorem countP_var_declarations (d : SubroutineDec) (className : Text) :
    (d.declarations className).countP (·.storage = .var) = d.locals := by
  have ha : (d.argumentDeclarations className).countP (·.storage = .var) = 0 :=
    List.countP_eq_zero.mpr fun x hx => by simp [d.storage_of_mem_arguments hx]
  have hl : d.localDeclarations.countP (·.storage = .var) = d.localDeclarations.length :=
    List.countP_eq_length.mpr fun x hx => by simp [d.storage_of_mem_locals hx]
  rw [declarations, List.countP_append, ha, hl, Nat.zero_add, locals, ← d.map_name_localDeclarations,
    List.length_map]

end Tree.SubroutineDec

namespace Pass

open Jack.Tree

namespace Context

def declareAll (ds : List Declaration) (c : Context) : Context :=
  { c with scopes := c.scopes.declareAll ds }

section

variable (c : Context) (ds : List Declaration)

@[simp] theorem className_declareAll : (c.declareAll ds).className = c.className := rfl

@[simp] theorem nextIf_declareAll : (c.declareAll ds).nextIf = c.nextIf := rfl

@[simp] theorem nextWhile_declareAll : (c.declareAll ds).nextWhile = c.nextWhile := rfl

theorem declareAll_append (as bs : List Declaration) :
    c.declareAll (as ++ bs) = (c.declareAll as).declareAll bs := by
  simp [declareAll, Scopes.declareAll_append]

end

@[simp] theorem declareAll_comp (as bs : List Declaration) :
    declareAll as ∘ declareAll bs = declareAll (bs ++ as) := by
  funext c
  simp [declareAll_append]

/-- Before a subroutine, with nothing of the one before it. -/
def startSubroutine (c : Context) : Context := ⟨c.className, c.scopes.startSubroutine, 0, 0⟩

@[simp] theorem nextIf_startSubroutine (c : Context) : c.startSubroutine.nextIf = 0 := rfl

@[simp] theorem nextWhile_startSubroutine (c : Context) : c.startSubroutine.nextWhile = 0 := rfl

/-- In a class of the given name, after all of its declarations. -/
structure InClass (className : Text) (ofClass : List Declaration) (c : Context) : Prop where
  className : c.className = className
  ofClass : c.scopes.ofClass = Scope.declareAll {} ofClass

namespace InClass

variable {c : Context} {className : Text} {ofClass : List Declaration}

/-- The context in which the statements of a subroutine are read. -/
theorem scopes_subroutine (h : c.InClass className ofClass) (d : SubroutineDec) :
    (c.startSubroutine.declareAll (d.declarations className)).scopes =
      ⟨.declareAll {} ofClass, .declareAll {} (d.declarations className)⟩ := by
  unfold declareAll
  rw [Scopes.declareAll_of_not_ofClass _ fun x hx => SubroutineDec.ofClass_of_mem_declarations hx]
  simp [startSubroutine, Scopes.startSubroutine, h.ofClass]

theorem env_subroutine (h : c.InClass className ofClass) (d : SubroutineDec) :
    (c.startSubroutine.declareAll (d.declarations className)).env = d.env className ofClass := by
  unfold env SubroutineDec.env Env.ofDeclarations
  rw [h.scopes_subroutine d]
  have hf : Scopes.resolve? ⟨.declareAll {} ofClass, .declareAll {} (d.declarations className)⟩ =
      fun x => (Declaration.find? x (d.declarations className).reverse).or
        (Declaration.find? x ofClass.reverse) := by
    funext x
    simp [Scopes.resolve?, Scope.find?_declareAll]
  rw [hf, className_declareAll, ← h.className]
  rfl

theorem locals_subroutine (h : c.InClass className ofClass) (d : SubroutineDec) :
    (c.startSubroutine.declareAll (d.declarations className)).scopes.count .var = d.locals := by
  rw [h.scopes_subroutine d]
  simpa [Scopes.count, Storage.ofClass, Scope.count_declareAll] using d.countP_var_declarations className

theorem fields_subroutine (h : c.InClass className ofClass) (d : SubroutineDec) :
    (c.startSubroutine.declareAll (d.declarations className)).scopes.count .field =
      ofClass.countP (·.storage = .field) := by
  rw [h.scopes_subroutine d]
  simp [Scopes.count, Storage.ofClass, Scope.count_declareAll]

end InClass

end Context

/-- Effects that declare variables declare all of them one after another. -/
theorem Effect.context_concat {ι : Type} {f : ι → Effect} {g : ι → List Declaration}
    (h : ∀ x, (f x).context = .declareAll (g x)) (items : List ι) :
    (concat (items.map f)).context = .declareAll (items.flatMap g) := by
  induction items with
  | nil => rfl
  | cons x items ih => simp [ih, h]

end Pass

namespace Tree

open Pass (Context Effect)

/-- The effect of a further item of a list. -/
@[simp] def Further.effect {α : Type} (f : α → Effect) (x : Further α) : Effect :=
  .take x.comma.token ++ f x.item

theorem Further.context_concat {α : Type} {f : α → Effect} {g : α → Declaration}
    (h : ∀ x, (f x).context = .declareAll [g x]) (items : List (Further α)) :
    (Effect.concat (items.map (Further.effect f))).context =
      .declareAll ((items.map Further.item).map g) := by
  rw [Effect.context_concat (g := fun x => [g x.item]) (fun x => by simp [h])]
  simp [List.map_eq_flatMap, List.flatMap_assoc]

/-- The effect of a name that declares a variable. -/
@[simp] def Name.effect (type : Text) (storage : Storage) (x : Name) : Effect :=
  .take x.token ++ .update (.declareAll [⟨x.lexeme, type, storage⟩])

@[simp] def VarNames.effect (storage : Storage) (v : VarNames) : Effect :=
  { tokens := v.tokens, entries := v.entries, context := .declareAll (v.declarations storage) }

theorem VarNames.effect_eq (storage : Storage) (v : VarNames) :
    v.effect storage = .take v.type.token ++ (Name.effect v.type.lexeme storage v.first ++
      (.concat (v.rest.map (Further.effect (Name.effect v.type.lexeme storage))) ++
        .take v.semicolon.token)) := by
  have hc := Further.context_concat (f := Name.effect v.type.lexeme storage)
    (g := fun x => ⟨x.lexeme, v.type.lexeme, storage⟩) (fun x => by simp) v.rest
  apply Effect.ext
  · simp [tokens, List.flatMap_map]
  · simp [entries, List.flatMap_map]
  · simp
  · symm
    simp
  · simp [hc, declarations, names]

@[simp] def ClassVarDec.effect (d : ClassVarDec) : Effect :=
  { tokens := d.tokens, entries := d.entries, context := .declareAll d.declarations }

@[simp] def classVarDecsEffect (vars : List ClassVarDec) : Effect :=
  { tokens := vars.flatMap ClassVarDec.tokens
    entries := vars.flatMap ClassVarDec.entries
    context := .declareAll (vars.flatMap ClassVarDec.declarations) }

theorem concat_classVarDecs (vars : List ClassVarDec) :
    .concat (vars.map ClassVarDec.effect) = classVarDecsEffect vars := by
  have hc := Effect.context_concat (f := ClassVarDec.effect) (fun _ => rfl) vars
  apply Effect.ext <;> simp [hc, List.flatMap_map]

@[simp] def VarDec.effect (d : VarDec) : Effect :=
  { tokens := d.tokens, entries := d.entries, context := .declareAll d.declarations }

@[simp] def varDecsEffect (vars : List VarDec) : Effect :=
  { tokens := vars.flatMap VarDec.tokens
    entries := vars.flatMap VarDec.entries
    context := .declareAll (vars.flatMap VarDec.declarations) }

theorem concat_varDecs (vars : List VarDec) :
    .concat (vars.map VarDec.effect) = varDecsEffect vars := by
  have hc := Effect.context_concat (f := VarDec.effect) (fun _ => rfl) vars
  apply Effect.ext <;> simp [hc, List.flatMap_map]

@[simp] def Parameter.effect (p : Parameter) : Effect :=
  { tokens := p.tokens, entries := p.entries, context := .declareAll [p.declaration] }

@[simp] def ParameterList.effect (ps : ParameterList) : Effect :=
  { tokens := ps.tokens
    entries := ps.entries
    context := .declareAll (ps.parameters.map Parameter.declaration) }

theorem ParameterList.effect_some (first : Parameter) (others : List (Further Parameter)) :
    (ParameterList.some first others).effect =
      (first.effect ++ .concat (others.map (Further.effect Parameter.effect))).node .parameterList := by
  have hc := Further.context_concat (f := Parameter.effect) (g := Parameter.declaration)
    (fun p => by simp) others
  apply Effect.ext
  · simp [tokens, List.flatMap_map]
  · simp [entries, List.flatMap_map]
  · simp
  · symm
    simp
  · simp [hc, parameters]

/-- The effect of the body of a subroutine, in the context after its parameters. -/
@[simp] def bodyEffect (c : Context) (name : Text) (kind : SubroutineKind) (braces : Braces)
    (vars : List VarDec) (body : Statements) : Effect :=
  let inner := c.declareAll (vars.flatMap VarDec.declarations)
  Effect.node .subroutineBody <|
    .take braces.opening.token ++ (varDecsEffect vars ++
      (.emit (.function name (inner.scopes.count .var)) ++
        ({ code := kind.prologue (inner.scopes.count .field) } ++
          ((body.effect inner).node .statements ++ .take braces.closing.token))))

namespace SubroutineDec

@[simp] def effect (className : Text) (ofClass : List Declaration) (d : SubroutineDec) : Effect :=
  { tokens := d.tokens
    entries := d.entries
    code := d.code className ofClass
    fault := fault (d.env className ofClass) d.body.mentions
    context := .advance d.body.ifs d.body.whiles ∘
      .declareAll (d.declarations className) ∘ .startSubroutine }

/-- The context after the parameters of a subroutine. -/
def outer (c : Context) (d : SubroutineDec) : Context :=
  (c.startSubroutine.declareAll (d.kind.receiver c.className)).declareAll
    (d.parameters.parameters.map Parameter.declaration)

section

variable {c : Context} {ofClass : List Declaration}

theorem effect_eq (h : c.InClass c.className ofClass) (d : SubroutineDec) :
    d.effect c.className ofClass = Effect.node .subroutineDec
      (.update .startSubroutine ++ (.take d.word.token ++
        (.update (.declareAll (d.kind.receiver c.className)) ++ (.take d.type.token ++
          (.take d.name.token ++ (.take d.parens.opening.token ++ (d.parameters.effect ++
            (.take d.parens.closing.token ++
              bodyEffect (d.outer c) (c.className ++ "." ++ d.name.lexeme) d.kind d.braces d.vars
                d.body)))))))) := by
  have hi : (d.outer c).declareAll (d.vars.flatMap VarDec.declarations) =
      c.startSubroutine.declareAll (d.declarations c.className) := by
    simp only [outer, declarations, argumentDeclarations, localDeclarations, Context.declareAll_append]
  apply Effect.ext
  · simp [tokens]
  · simp [entries]
  · simp [hi, h.env_subroutine, h.locals_subroutine, h.fields_subroutine, code]
  · simp [hi, h.env_subroutine]
  · funext ctx
    simp [declarations, argumentDeclarations, localDeclarations, Context.declareAll_append]

/-- A subroutine leaves the class around it as it was. -/
theorem inClass_effect {className : Text} (h : c.InClass className ofClass) (d : SubroutineDec) :
    ((d.effect className ofClass).context c).InClass className ofClass where
  className := h.className
  ofClass := congrArg Scopes.ofClass (h.scopes_subroutine d)

end

end SubroutineDec

/-- After its variables a class is ready for its subroutines. -/
theorem ofClass_of_mem_classVarDecs {vars : List ClassVarDec} {d : Declaration}
    (h : d ∈ vars.flatMap ClassVarDec.declarations) : d.storage.ofClass = true := by
  obtain ⟨v, _, h⟩ := List.mem_flatMap.mp h
  obtain ⟨x, _, rfl⟩ := List.mem_map.mp h
  cases v.storage <;> simp [ClassStorage.storage, Storage.ofClass]

theorem inClass_classVarDecs (name : Text) (vars : List ClassVarDec) {c : Context}
    (h : c.scopes.ofClass = {}) :
    Context.InClass name (vars.flatMap ClassVarDec.declarations)
      (Context.declareAll (vars.flatMap ClassVarDec.declarations) { c with className := name }) where
  className := rfl
  ofClass := by
    simp [Context.declareAll, Scopes.declareAll_of_ofClass _ fun _ => ofClass_of_mem_classVarDecs, h]

namespace ClassDec

/-- The context changes by what the parts of a class do to it. -/
@[simp] def effect (c : ClassDec) : Effect :=
  let subroutines := c.subroutines.map (·.effect c.name.lexeme c.declarations)
  { tokens := c.tokens
    entries := c.entries
    code := c.code
    fault := subroutines.findSome? Effect.fault
    context := (Effect.concat subroutines).context ∘ .declareAll c.declarations ∘
      fun ctx => { ctx with className := c.name.lexeme } }

theorem effect_eq (c : ClassDec) :
    c.effect = Effect.node .classDec (.take c.word.token ++ (.take c.name.token ++
      (.update (fun ctx => { ctx with className := c.name.lexeme }) ++
        (.take c.braces.opening.token ++ (classVarDecsEffect c.vars ++
          (.concat (c.subroutines.map (·.effect c.name.lexeme c.declarations)) ++
            .take c.braces.closing.token)))))) := by
  apply Effect.ext
  · simp [tokens, List.flatMap_map]
  · simp [entries, List.flatMap_map]
  · simp [code, List.flatMap_map]
  · simp
  · rfl

end ClassDec

end Tree

end Jack
