import Jack.Proofs.Reading.Statement
import Jack.Proofs.Tree.ClassEffect

/-! Classes are read: given the tokens of a tree, the pass has the effect of that tree. -/

namespace Jack

namespace Pass

open Jack.Tree

variable {c : Context} {rest : List Token} {n : Nat} {className : Text} {ofClass : List Declaration}

theorem declare_runs (name type : Text) (storage : Storage) :
    Runs (declare name type storage) c rest () (.update (.declareAll [⟨name, type, storage⟩])) := by
  have hd : Runs (modifyGet fun s : State => ((s.scopes.declare name type storage).1,
        { s with scopes := (s.scopes.declare name type storage).2 })) c rest
      (c.scopes.declare name type storage).1 (.update (.declareAll [⟨name, type, storage⟩])) :=
    modifyGet_runs fun s hc => ⟨by rw [← hc]; rfl, .update rfl rfl rfl rfl rfl⟩
  exact .congr (.bind (e := {}) hd (note_runs _)) (Effect.append_empty _)

theorem declareNext_runs (x : Name) (type : Text) (storage : Storage) :
    Runs (declareNext type storage) c rest () (Name.effect type storage x) :=
  .bind (ident_runs x) (declare_runs _ _ _)

theorem afterComma_reads {α : Type} {p : Pass Unit} {f : α → Effect}
    (hp : ∀ x c rest, Runs p c rest () (f x)) :
    ReadsItems (afterComma p) n (fun _ => True) (Further.effect f) where
  nonempty x := by simp
  keeps _ _ _ := trivial
  reads x c rest _ _ :=
    ⟨do punct .comma; p, by simp [afterComma], .bind (punct_runs x.comma) (hp x.item _ _)⟩

theorem varNames_runs (storage : Storage) (v : VarNames) (hl : v.tokens.length ≤ n) :
    Runs (varNames storage n) c rest () (v.effect storage) := by
  let more := Effect.concat (v.rest.map (Further.effect (Name.effect v.type.lexeme storage)))
  have hn : more.tokens.length ≤ n := by
    have ht := congrArg (·.tokens.length) (v.effect_eq storage)
    simp only [VarNames.effect, Effect.tokens_append, List.length_append] at ht
    simp only [more]
    omega
  have hm : Runs (repeatBy (afterComma (declareNext v.type.lexeme storage)) n)
      (c.declareAll [⟨v.first.lexeme, v.type.lexeme, storage⟩]) (v.semicolon.token :: rest)
      v.rest.length more :=
    (afterComma_reads fun x _ _ => declareNext_runs x _ _).runs (by simp [afterComma]) _ _ trivial hn hn
  rw [v.effect_eq]
  exact .bind (expect_runs v.type) <| .bind (declareNext_runs v.first _ _) <|
    .bind hm.discard (punct_runs v.semicolon)

theorem parameter_runs (p : Parameter) : Runs parameter c rest () p.effect := by
  refine .congr (.bind (expect_runs p.type) (declareNext_runs p.name _ _)) ?_
  apply Effect.ext <;> simp [Parameter.tokens, Parameter.entries, Parameter.declaration]

theorem parameterList_runs (ps : ParameterList) (hl : ps.tokens.length ≤ n)
    (hr : next rest = .punct .rparen) : Runs (parameterList n) c rest () ps.effect := by
  cases ps with
  | none => exact within_runs (.peek_bind (e := {}) hr (.pure ()))
  | some first others =>
    let more := Effect.concat (others.map (Further.effect Parameter.effect))
    have hn : more.tokens.length ≤ n := by
      have ht := congrArg (·.tokens.length) (ParameterList.effect_some first others)
      simp only [ParameterList.effect, Effect.node, Effect.tokens_append, List.length_append] at ht
      simp only [more]
      omega
    have hm : Runs (repeatBy (afterComma parameter) n) (c.declareAll [first.declaration]) rest
        others.length more :=
      (afterComma_reads fun p _ _ => parameter_runs p).runs (by simp [afterComma, hr]) _ _ trivial hn hn
    have hne : first.type.token.terminal ≠ .punct .rparen := by
      intro h
      simpa [h, typeTerminals] using first.type.terminal_mem
    rw [ParameterList.effect_some]
    refine within_runs (.peek_bind (t := first.type.token.terminal) ?_ ?_)
    · simp [Parameter.tokens]
    · rw [if_neg hne]
      exact .bind (parameter_runs first) hm.discard

theorem varDec_runs (d : VarDec) (hl : d.tokens.length ≤ n) : Runs (varDec n) c rest () d.effect := by
  simp only [VarDec.tokens, List.length_cons] at hl
  refine .congr (within_runs (.bind (keyword_runs d.word) (varNames_runs .var d.vars (by omega)))) ?_
  apply Effect.ext <;> simp [VarDec.tokens, VarDec.entries, VarDec.declarations]

theorem varDecs_read : ReadsItems (varDecBy n) n (fun _ => True) VarDec.effect where
  nonempty d := by simp [VarDec.tokens]
  keeps _ _ _ := trivial
  reads d c rest _ hl := ⟨varDec n, by simp [VarDec.tokens, varDecBy], varDec_runs d hl⟩

theorem varDecs_runs (vars : List VarDec) (hl : (vars.flatMap VarDec.tokens).length ≤ n)
    (hr : varDecBy n (next rest) = none) :
    Runs (discard <| repeatBy (varDecBy n) n) c rest () (varDecsEffect vars) := by
  rw [← concat_varDecs]
  have ht : (Effect.concat (vars.map VarDec.effect)).tokens.length ≤ n := by
    simpa [concat_varDecs] using hl
  exact (varDecs_read.runs hr vars n trivial ht ht).discard

theorem classVarDec_runs (d : ClassVarDec) (hl : d.tokens.length ≤ n) :
    Runs (classVarDec n) c rest () d.effect := by
  simp only [ClassVarDec.tokens, List.length_cons] at hl
  have hk : d.word.token.terminal ∈ [.keyword .field, .keyword .static] := by
    rw [d.word.terminal_eq]
    cases d.storage <;> simp [ClassStorage.keyword]
  have hs : (if d.word.token.terminal = .keyword .field then Storage.field else .static) =
      d.storage.storage := by
    rw [d.word.terminal_eq]
    cases d.storage <;> rfl
  refine .congr (within_runs (.bind (expect_runs ⟨d.word.token, hk⟩)
    (varNames_runs _ d.vars (by omega)))) ?_
  rw [hs]
  apply Effect.ext <;> simp [ClassVarDec.tokens, ClassVarDec.entries, ClassVarDec.declarations]

theorem classVarDecs_read : ReadsItems (classVarDecBy n) n (fun _ => True) ClassVarDec.effect where
  nonempty d := by simp [ClassVarDec.tokens]
  keeps _ _ _ := trivial
  reads d c rest _ hl := by
    refine ⟨classVarDec n, ?_, classVarDec_runs d hl⟩
    simp only [ClassVarDec.effect, ClassVarDec.tokens, List.cons_append, next_cons, d.word.terminal_eq]
    cases d.storage <;> rfl

theorem classVarDecs_runs (vars : List ClassVarDec)
    (hl : (vars.flatMap ClassVarDec.tokens).length ≤ n) (hr : classVarDecBy n (next rest) = none) :
    Runs (discard <| repeatBy (classVarDecBy n) n) c rest () (classVarDecsEffect vars) := by
  rw [← concat_classVarDecs]
  have ht : (Effect.concat (vars.map ClassVarDec.effect)).tokens.length ≤ n := by
    simpa [concat_classVarDecs] using hl
  exact (classVarDecs_read.runs hr vars n trivial ht ht).discard

theorem scopes_of_context {s : State} (h : s.context = c) : s.scopes = c.scopes :=
  congrArg Context.scopes h

theorem prologue_runs (kind : SubroutineKind) :
    Runs (prologue (.keyword kind.keyword)) c rest ()
      { code := kind.prologue (c.scopes.count .field) } := by
  cases kind with
  | constructor =>
    refine .get_bind fun s hs => ?_
    rw [scopes_of_context hs]
    refine .congr (.bind (emit_runs _) <| .bind (emit_runs _) (emit_runs _)) ?_
    apply Effect.ext <;> simp [SubroutineKind.prologue]
  | function => exact .pure ()
  | method =>
    refine .congr (.bind (emit_runs _) (emit_runs _)) ?_
    apply Effect.ext <;> simp [SubroutineKind.prologue]

theorem subroutineBody_runs (name : Text) (kind : SubroutineKind) (braces : Braces)
    (vars : List VarDec) (body : Statements) (hv : (vars.flatMap VarDec.tokens).length ≤ n)
    (hb : body.tokens.length ≤ n) :
    Runs (subroutineBody name (.keyword kind.keyword) n) c rest ()
      (bodyEffect c name kind braces vars body) := by
  let inner := c.declareAll (vars.flatMap VarDec.declarations)
  let code : Effect := .emit (.function name (inner.scopes.count .var)) ++
    ({ code := kind.prologue (inner.scopes.count .field) } ++
      ((body.effect inner).node .statements ++ .take braces.closing.token))
  have hcode : Runs (do
      let locals := (← get).scopes.count .var
      emit (.function name locals)
      note (.wroteFunction name locals)
      prologue (.keyword kind.keyword)
      statements n
      punct .rbrace) inner rest () code := by
    refine .get_bind fun s hs => ?_
    rw [scopes_of_context hs]
    exact .bind (emit_runs _) <| .skip (note_runs _) <| .bind (prologue_runs _) <|
      .bind (statements_runs n body inner _ hb (by simp)) (punct_runs braces.closing)
  have hd : varDecBy n (next (code.tokens ++ rest)) = none := by
    cases hst : body with
    | nil => simp [code, hst, varDecBy]
    | cons st sts => cases st <;> simp [code, hst, varDecBy]
  exact within_runs (.bind (punct_runs braces.opening) (.bind (varDecs_runs vars hv hd) hcode))

theorem startSubroutine_runs : Runs startSubroutine c rest () (.update .startSubroutine) :=
  .of_ok rfl fun _ _ _ => ⟨_, rfl, .update rfl rfl rfl rfl rfl⟩

/-- A method declares its object, any other subroutine goes on. -/
theorem receiver_runs {k : Pass Unit} {e : Effect} (kind : SubroutineKind)
    (hk : Runs k (c.declareAll (kind.receiver c.className)) rest () e) :
    Runs (if Terminal.keyword kind.keyword = .keyword .method then do
        declare "this" (← get).className .argument
        k
      else k) c rest () (.update (.declareAll (kind.receiver c.className)) ++ e) := by
  have hn : ∀ s : State, s.context = c → s.className = c.className := fun _ hs =>
    congrArg Context.className hs
  cases kind with
  | method =>
    refine .get_bind fun s hs => ?_
    rw [hn s hs]
    exact .bind (declare_runs _ _ _) hk
  | constructor => exact .congr hk e.empty_append.symm
  | function => exact .congr hk e.empty_append.symm

theorem subroutineDec_runs (h : c.InClass className ofClass) (d : SubroutineDec)
    (hl : d.tokens.length ≤ n) :
    Runs (subroutineDec n) c rest () (d.effect className ofClass) := by
  simp only [SubroutineDec.tokens, Pair.tokens, List.cons_append, List.length_cons,
    List.length_append] at hl
  have hk : d.word.token.terminal ∈ [.keyword .constructor, .keyword .function, .keyword .method] := by
    rw [d.word.terminal_eq]
    cases d.kind <;> simp [SubroutineKind.keyword]
  obtain rfl := h.className
  have hb : Runs (subroutineBody (c.className ++ "." ++ d.name.lexeme) (.keyword d.kind.keyword) n)
      (d.outer c) rest () (bodyEffect (d.outer c) (c.className ++ "." ++ d.name.lexeme) d.kind d.braces
        d.vars d.body) :=
    subroutineBody_runs _ _ _ _ _ (by omega) (by omega)
  rw [SubroutineDec.effect_eq h]
  refine within_runs (.bind startSubroutine_runs <| .bind (expect_runs ⟨d.word.token, hk⟩) ?_)
  simp only [d.word.terminal_eq]
  exact receiver_runs d.kind <| .bind (expect_runs d.type).discard <| .bind (ident_runs d.name) <|
    .skip (ownSubroutine_runs _) <| .bind (punct_runs d.parens.opening) <|
    .bind (parameterList_runs d.parameters (by omega) (by simp)) <|
    .bind (punct_runs d.parens.closing) hb

theorem subroutineDecs_read :
    ReadsItems (subroutineDecBy n) n (·.InClass className ofClass)
      (SubroutineDec.effect className ofClass) where
  nonempty d := by simp [SubroutineDec.tokens]
  keeps d c h := SubroutineDec.inClass_effect h d
  reads d c rest h hl := by
    refine ⟨subroutineDec n, ?_, subroutineDec_runs h d hl⟩
    simp only [SubroutineDec.effect, SubroutineDec.tokens, List.cons_append, next_cons,
      d.word.terminal_eq]
    cases d.kind <;> rfl

theorem subroutineDecs_runs (h : c.InClass className ofClass) (ds : List SubroutineDec)
    (hl : (ds.flatMap SubroutineDec.tokens).length ≤ n) (hr : next rest = .punct .rbrace) :
    Runs (discard <| repeatBy (subroutineDecBy n) n) c rest ()
      (.concat (ds.map (SubroutineDec.effect className ofClass))) := by
  have ht : (Effect.concat (ds.map (SubroutineDec.effect className ofClass))).tokens.length ≤ n := by
    simpa [List.flatMap_map] using hl
  exact (subroutineDecs_read.runs (by simp [hr, subroutineDecBy]) ds n h ht ht).discard

theorem className_runs (name : Text) :
    Runs (modify fun s : State => { s with className := name }) c rest ()
      (.update fun c => { c with className := name }) :=
  .of_ok rfl fun _ _ _ => ⟨_, rfl, .update rfl rfl rfl rfl rfl⟩

theorem classDec_runs (c : ClassDec) {ctx : Context} (h : ctx.scopes.ofClass = {})
    (hl : c.tokens.length ≤ n) : Runs (classDec n) ctx rest () c.effect := by
  simp only [ClassDec.tokens, Pair.tokens, List.length_cons, List.length_append] at hl
  let subs := Effect.concat (c.subroutines.map (·.effect c.name.lexeme c.declarations))
  have hs : Runs (do discard <| repeatBy (subroutineDecBy n) n; punct .rbrace)
      (Context.declareAll c.declarations { ctx with className := c.name.lexeme }) rest ()
      (subs ++ .take c.braces.closing.token) :=
    .bind (subroutineDecs_runs (inClass_classVarDecs _ _ h) c.subroutines (by omega) (by simp))
      (punct_runs c.braces.closing)
  have hd : classVarDecBy n (next ((subs ++ .take c.braces.closing.token).tokens ++ rest)) = none := by
    cases hds : c.subroutines with
    | nil => simp [subs, hds, classVarDecBy]
    | cons d ds =>
      simp only [subs, hds, List.map_cons, Effect.concat_cons, Effect.tokens_append,
        SubroutineDec.effect, SubroutineDec.tokens, List.cons_append, next_cons, d.word.terminal_eq]
      cases d.kind <;> rfl
  rw [c.effect_eq]
  exact within_runs (.bind (keyword_runs c.word) <| .bind (ident_runs c.name) <|
    .bind (className_runs _) <| .skip (note_runs _) <| .bind (punct_runs c.braces.opening) <|
    .bind (classVarDecs_runs c.vars (by omega) hd) hs)

/-- A class with nothing behind it. -/
theorem wholeClass_runs (c : ClassDec) {ctx : Context} (h : ctx.scopes.ofClass = {})
    (hl : c.tokens.length ≤ n) : Runs (wholeClass n) ctx [] () c.effect := by
  refine .congr (.bind (e := {}) (classDec_runs c h hl) (.peek_bind (t := .eof) rfl ?_)) ?_
  · exact .pure ()
  · exact Effect.append_empty _

end Pass

end Jack
