import Jack.Proofs.Accepting.Class
import Jack.Proofs.Rejecting.Statement

/-! Classes are rejected at their first error: the pass tracks the language of classes. -/

namespace Jack.Pass

open Jack.Tree

variable {n : Nat} {K : Language} {p : Pass Unit} {c : Context} {w : List Mark} {ι : Type}

instance : Inhabited (Leaf typeTerminals) := inferInstanceAs (Inhabited (Leaf (_ :: _)))

instance : Inhabited VarNames := ⟨⟨default, default, [], default⟩⟩

instance : Inhabited VarDec := ⟨⟨default, default⟩⟩

instance : Inhabited ClassVarDec := ⟨⟨.field, default, default⟩⟩

instance : Inhabited Parameter := ⟨⟨default, default⟩⟩

instance : Inhabited ParameterList := ⟨.none⟩

instance : Inhabited SubroutineDec :=
  ⟨⟨.function, default, default, default, ⟨default, default⟩, .none, ⟨default, default⟩, [], .nil⟩⟩

namespace Language

/-- Trees that declare variables, one after another, and what may follow them. -/
def declaringAll (tokens : ι → List Token) (declarations : ι → List Declaration) (K : Language) :
    Language :=
  declaring (fun xs : List ι => xs.flatMap tokens) (fun xs => xs.flatMap declarations) K

/-- A name that declares a variable. -/
def declaredName (type : Text) (storage : Storage) (K : Language) : Language :=
  declaring (fun x : Name => [x.token]) (fun x => [⟨x.lexeme, type, storage⟩]) K

/-- Further items of a list that declare a variable each. -/
def furthers (tokens : ι → List Token) (declaration : ι → Declaration) (K : Language) : Language :=
  declaringAll (fun x : Further ι => x.comma.token :: tokens x.item) (fun x => [declaration x.item]) K

def varNames (storage : Storage) (K : Language) : Language :=
  declaring VarNames.tokens (VarNames.declarations storage) K

def varDec (K : Language) : Language := declaring VarDec.tokens VarDec.declarations K

def classVarDec (K : Language) : Language := declaring ClassVarDec.tokens ClassVarDec.declarations K

def parameter (K : Language) : Language := declaring Parameter.tokens (fun p => [p.declaration]) K

def parameterList (K : Language) : Language :=
  declaring ParameterList.tokens (fun ps => ps.parameters.map Parameter.declaration) K

end Language

theorem declaringAll_iff {tokens : ι → List Token} {declarations : ι → List Declaration} [Nonempty ι] :
    Language.declaringAll tokens declarations K c w ↔
      K c w ∨ Language.declaring tokens declarations (.declaringAll tokens declarations K) c w := by
  constructor
  · rintro ⟨_ | ⟨x, xs⟩, k, hk, rfl⟩
    · exact .inl hk
    · refine .inr ⟨x, _, ⟨xs, k, ?_, rfl⟩, by simp⟩
      simpa [Context.declareAll_append] using hk
  · rintro (hk | ⟨x, _, ⟨xs, k, hk, rfl⟩, rfl⟩)
    · exact ⟨[], w, hk, rfl⟩
    · refine ⟨x :: xs, k, ?_, by simp⟩
      simpa [Context.declareAll_append] using hk

/-- A loop over declarations tracks all of them. -/
theorem declaringAll_tracks {tokens : ι → List Token} {declarations : ι → List Declaration} [Nonempty ι]
    {select : Terminal → Option (Pass Unit)} (he : select .eof = none)
    (hK : Starts (select · = none) K) (hs : ∀ x rest, select (next (tokens x ++ rest)) ≠ none)
    (more : ∀ t body L, select t = some body →
      TracksAt n t body (.declaring tokens declarations L) fun _ => L) :
    Tracks n (repeatBy select n) (.declaringAll tokens declarations K) fun _ => K := by
  refine repeatBy_tracks he (fun _ _ => declaringAll_iff) hK ?_ (fun t body h => more t body _ h) n
    (Nat.le_refl n)
  rintro c _ ⟨x, k, -, rfl⟩
  simpa using hs x _

theorem declareNext_tracks (type : Text) (storage : Storage) :
    Tracks n (declareNext type storage) (K.declaredName type storage) fun _ => K :=
  (expect_bind (L := fun x => K.via (.declareAll [⟨x.lexeme, type, storage⟩])) (by simp)
    fun x => (silent_declare x.lexeme type storage).tracks K).mono (Nat.le_succ n)

/-- A procedure that declares one variable is repeated behind commas. -/
theorem furthers_tracks {tokens : ι → List Token} {declaration : ι → Declaration} [Nonempty ι]
    (hp : ∀ L, Tracks n p (.declaring tokens (fun x => [declaration x]) L) fun _ => L)
    (hK : Starts (afterComma p · = none) K) :
    Tracks n (repeatBy (afterComma p) n) (.furthers tokens declaration K) fun _ => K := by
  have : Nonempty (Further ι) := by
    obtain ⟨x⟩ := ‹Nonempty ι›
    exact ⟨⟨default, x⟩⟩
  refine declaringAll_tracks rfl hK (fun x rest => by simp [afterComma]) fun t body L h => ?_
  unfold afterComma at h
  split at h <;> cases h
  have ht : Tracks n (do punct .comma; p)
      (.token (.punct .comma) (.declaring tokens (fun x => [declaration x]) L)) fun _ => L :=
    (token_tracks (by simp)).bind fun _ => hp L
  refine (ht.congr fun c w => ?_) _
  constructor
  · rintro ⟨⟨comma, x⟩, k, hk, rfl⟩
    exact ⟨comma, _, ⟨x, k, hk, rfl⟩, rfl⟩
  · rintro ⟨comma, _, ⟨x, k, hk, rfl⟩, rfl⟩
    exact ⟨⟨comma, x⟩, k, hk, rfl⟩

/-- A first declaration and those of further items are made one after another. -/
theorem declareAll_further (c : Context) (first : Declaration) (f : ι → Declaration)
    (rest : List (Further ι)) :
    (c.declareAll [first]).declareAll (rest.flatMap fun x => [f x.item]) =
      c.declareAll (first :: (rest.map Further.item).map f) := by
  rw [← Context.declareAll_append, List.map_map, List.map_eq_flatMap]
  rfl

theorem varNames_iff {storage : Storage} :
    K.varNames storage c w ↔ Language.leaf typeTerminals (fun type =>
      .declaredName type.lexeme storage (.furthers (fun x : Name => [x.token])
        (fun x => ⟨x.lexeme, type.lexeme, storage⟩) (.token (.punct .semicolon) K))) c w := by
  constructor
  · rintro ⟨⟨type, first, rest, semicolon⟩, k, hk, rfl⟩
    refine ⟨type, _, ⟨first, _, ⟨rest, _, ⟨semicolon, k, ?_, rfl⟩, rfl⟩, rfl⟩, ?_⟩
    · rw [declareAll_further c _ fun x : Name => ⟨x.lexeme, type.lexeme, storage⟩]
      exact hk
    · simp [VarNames.tokens]
  · rintro ⟨type, _, ⟨first, _, ⟨rest, _, ⟨semicolon, k, hk, rfl⟩, rfl⟩, rfl⟩, rfl⟩
    rw [declareAll_further c _ fun x : Name => ⟨x.lexeme, type.lexeme, storage⟩] at hk
    exact ⟨⟨type, first, rest, semicolon⟩, k, hk, by simp [VarNames.tokens]⟩

theorem varNames_tracks (storage : Storage) :
    Tracks n (varNames storage n) (K.varNames storage) fun _ => K := by
  refine .congr ?_ fun _ _ => varNames_iff
  refine (expect_bind (by simp [typeTerminals]) fun type => ?_).mono (Nat.le_succ n)
  refine (declareNext_tracks _ _).bind fun _ => ?_
  refine (Tracks.discard (furthers_tracks (fun _ => declareNext_tracks _ _) (starts_token rfl))).bind ?_
  exact fun _ => token_tracks (by simp)

theorem varDec_tracks : Tracks n (varDec n) K.varDec fun _ => K := by
  refine .within (.congr ((token_tracks (by simp)).bind fun _ => varNames_tracks .var) fun c w => ?_)
  constructor
  · rintro ⟨⟨word, vars⟩, k, hk, rfl⟩
    exact ⟨word, _, ⟨vars, k, hk, rfl⟩, rfl⟩
  · rintro ⟨word, _, ⟨vars, k, hk, rfl⟩, rfl⟩
    exact ⟨⟨word, vars⟩, k, hk, rfl⟩

theorem varDecs_tracks (hK : Starts (varDecBy n · = none) K) :
    Tracks n (repeatBy (varDecBy n) n) (.declaringAll VarDec.tokens VarDec.declarations K)
      fun _ => K := by
  refine declaringAll_tracks rfl hK (fun d rest => ?_) fun t body L h => ?_
  · simp [VarDec.tokens, varDecBy]
  · unfold varDecBy at h
    split at h <;> cases h
    exact varDec_tracks _

theorem classVarDec_tracks : Tracks n (classVarDec n) K.classVarDec fun _ => K := by
  refine .within (.congr ((expect_bind (by simp) fun word => varNames_tracks _).mono (Nat.le_succ n))
    fun c w => ?_)
  constructor
  · rintro ⟨⟨storage, word, vars⟩, k, hk, rfl⟩
    cases storage with
    | field =>
      have hw : word.token.terminal = .keyword .field := word.terminal_eq
      refine ⟨⟨word.token, by rw [hw]; simp⟩, _, ⟨vars, k, ?_, rfl⟩, rfl⟩
      rw [if_pos hw]
      exact hk
    | static =>
      have hw : word.token.terminal = .keyword .static := word.terminal_eq
      refine ⟨⟨word.token, by rw [hw]; simp⟩, _, ⟨vars, k, ?_, rfl⟩, rfl⟩
      rw [if_neg (by rw [hw]; simp)]
      exact hk
  · rintro ⟨word, _, ⟨vars, k, hk, rfl⟩, rfl⟩
    by_cases hf : word.token.terminal = .keyword .field
    · rw [if_pos hf] at hk
      exact ⟨⟨.field, ⟨word.token, by simp [hf, ClassStorage.keyword]⟩, vars⟩, k, hk, rfl⟩
    · have hs : word.token.terminal = .keyword .static := by simpa [hf] using word.terminal_mem
      rw [if_neg hf] at hk
      exact ⟨⟨.static, ⟨word.token, by simp [hs, ClassStorage.keyword]⟩, vars⟩, k, hk, rfl⟩

theorem classVarDecs_tracks (hK : Starts (classVarDecBy n · = none) K) :
    Tracks n (repeatBy (classVarDecBy n) n)
      (.declaringAll ClassVarDec.tokens ClassVarDec.declarations K) fun _ => K := by
  refine declaringAll_tracks rfl hK (fun d rest => ?_) fun t body L h => ?_
  · obtain ⟨storage, word, vars⟩ := d
    cases storage <;> simp [ClassVarDec.tokens, ClassStorage.keyword, classVarDecBy]
  · unfold classVarDecBy at h
    split at h <;> cases h
    · exact classVarDec_tracks _
    · exact classVarDec_tracks _

theorem parameter_tracks : Tracks n parameter K.parameter fun _ => K := by
  refine .congr ((expect_bind (by simp [typeTerminals]) fun type =>
    declareNext_tracks type.lexeme .argument).mono (Nat.le_succ n)) fun c w => ?_
  constructor
  · rintro ⟨⟨type, name⟩, k, hk, rfl⟩
    exact ⟨type, _, ⟨name, k, hk, rfl⟩, rfl⟩
  · rintro ⟨type, _, ⟨name, k, hk, rfl⟩, rfl⟩
    exact ⟨⟨type, name⟩, k, hk, rfl⟩

theorem parameterList_iff :
    K.parameterList c w ↔
      K c w ∨ (Language.furthers Parameter.tokens Parameter.declaration K).parameter c w := by
  constructor
  · rintro ⟨_ | ⟨first, rest⟩, k, hk, rfl⟩
    · exact .inl hk
    · refine .inr ⟨first, _, ⟨rest, k, ?_, rfl⟩, by simp [ParameterList.tokens]⟩
      rw [declareAll_further]
      exact hk
  · rintro (hk | ⟨first, _, ⟨rest, k, hk, rfl⟩, rfl⟩)
    · exact ⟨.none, w, hk, rfl⟩
    · rw [declareAll_further] at hk
      exact ⟨.some first rest, k, hk, by simp [ParameterList.tokens]⟩

theorem starts_parameter : Starts (· ∈ typeTerminals) K.parameter := by
  rintro c _ ⟨⟨type, name⟩, k, -, rfl⟩
  exact type.terminal_mem

theorem parameterList_tracks (hK : Starts (· = .punct .rparen) K) :
    Tracks n (parameterList n) K.parameterList fun _ => K := by
  refine .within (.peek_bind fun t => ?_)
  by_cases ht : t = .punct .rparen
  · subst ht
    simp only [if_true]
    refine (TracksAt.pure (G := fun _ => K) ()).narrow
      (narrows_left (fun _ _ => parameterList_iff) (starts_parameter.mono ?_))
    rintro _ hm rfl
    simp [typeTerminals] at hm
  · simp only [ht, if_false]
    have hs : Tracks n (do parameter; discard <| repeatBy (afterComma parameter) n)
        (Language.furthers Parameter.tokens Parameter.declaration K).parameter fun _ => K :=
      parameter_tracks.bind fun _ => .discard (furthers_tracks (fun _ => parameter_tracks)
        (hK.mono fun _ h => h ▸ rfl))
    exact (hs t).narrow
      (narrows_right (fun _ _ => parameterList_iff) (hK.mono fun _ h => h ▸ Ne.symm ht))

/-- The marks of a subroutine of the class being read. -/
def subroutineMarks (c : Context) (d : SubroutineDec) : List Mark :=
  d.marks (c.startSubroutine.declareAll (d.declarations c.className)).env

theorem startSubroutine_declareAll (c : Context) (d : SubroutineDec) :
    (c.startSubroutine.declareAll (d.declarations c.className)).startSubroutine = c.startSubroutine := by
  unfold Context.declareAll
  rw [Scopes.declareAll_of_not_ofClass _ fun x hx => SubroutineDec.ofClass_of_mem_declarations hx]
  rfl

theorem subroutineMarks_congr {c c' : Context} (h : c.startSubroutine = c'.startSubroutine) :
    subroutineMarks c = subroutineMarks c' := by
  have hs := congrArg Context.className h
  have hn : c.className = c'.className := hs
  funext d
  unfold subroutineMarks
  rw [h, hn]

/-- What may follow does not depend on the subroutine before. -/
def OfClass (K : Language) : Prop :=
  ∀ c c' : Context, c.startSubroutine = c'.startSubroutine → ∀ w, K c w → K c' w

namespace Language

def subroutine (K : Language) : Language := tree subroutineMarks K

def subroutines (K : Language) : Language :=
  tree (fun c (ds : List SubroutineDec) => ds.flatMap (subroutineMarks c)) K

/-- The body of a subroutine, and what may follow it. -/
def bodies (K : Language) : Language :=
  token (.punct .lbrace) (declaringAll VarDec.tokens VarDec.declarations
    (statements (token (.punct .rbrace) K)))

/-- A subroutine behind its first word. -/
def signatures (K : Language) : Language :=
  leaf (.keyword .void :: typeTerminals) fun _ => token .ident (token (.punct .lparen)
    (parameterList (token (.punct .rparen) K.bodies)))

end Language

theorem subroutines_iff : K.subroutines c w ↔ K c w ∨ K.subroutines.subroutine c w := by
  constructor
  · rintro ⟨_ | ⟨d, ds⟩, k, hk, rfl⟩
    · exact .inl hk
    · exact .inr ⟨d, _, ⟨ds, k, hk, rfl⟩, by simp⟩
  · rintro (hk | ⟨d, _, ⟨ds, k, hk, rfl⟩, rfl⟩)
    · exact ⟨[], w, hk, rfl⟩
    · exact ⟨d :: ds, k, hk, by simp⟩

theorem OfClass.subroutines (hK : OfClass K) : OfClass K.subroutines := by
  rintro c c' hc _ ⟨ds, k, hk, rfl⟩
  exact ⟨ds, k, hK c c' hc k hk, by simp only [subroutineMarks_congr hc]⟩

theorem bodies_iff : K.bodies c w ↔
    ∃ (braces : Braces) (vars : List VarDec) (body : Statements) (k : List Mark),
      K (c.declareAll (vars.flatMap VarDec.declarations)) k ∧
        w = braces.marks (plain (vars.flatMap VarDec.tokens) ++
          body.marks (c.declareAll (vars.flatMap VarDec.declarations)).env) ++ k := by
  constructor
  · rintro ⟨opening, _, ⟨vars, _, ⟨body, _, ⟨closing, k, hk, rfl⟩, rfl⟩, rfl⟩, rfl⟩
    exact ⟨⟨opening, closing⟩, vars, body, k, hk, by simp⟩
  · rintro ⟨braces, vars, body, k, hk, rfl⟩
    exact ⟨braces.opening, _, ⟨vars, _, ⟨body, _, ⟨braces.closing, k, hk, rfl⟩, rfl⟩, rfl⟩, by simp⟩

theorem signatures_iff : K.signatures c w ↔
    ∃ (type : Leaf (.keyword .void :: typeTerminals)) (name : Name) (parens : Parens)
      (parameters : ParameterList) (k : List Mark),
      K.bodies (c.declareAll (parameters.parameters.map Parameter.declaration)) k ∧
        w = type.mark :: name.mark :: parens.marks (plain parameters.tokens) ++ k := by
  constructor
  · rintro ⟨type, _, ⟨name, _, ⟨opening, _, ⟨parameters, _, ⟨closing, k, hk, rfl⟩, rfl⟩, rfl⟩, rfl⟩, rfl⟩
    exact ⟨type, name, ⟨opening, closing⟩, parameters, k, hk, by simp⟩
  · rintro ⟨type, name, parens, parameters, k, hk, rfl⟩
    exact ⟨type, _, ⟨name, _, ⟨parens.opening, _, ⟨parameters, _, ⟨parens.closing, k, hk, rfl⟩, rfl⟩, rfl⟩,
      rfl⟩, by simp⟩

/-- The context behind the first word of a subroutine. -/
def receive (kind : Terminal) (c : Context) : Context :=
  if kind = .keyword .method then c.declareAll [⟨"this", c.className, .argument⟩] else c

/-- A subroutine is read in contexts that its declarations change one after another. -/
theorem declareAll_receive (c : Context) (d : SubroutineDec) :
    ((receive d.word.token.terminal c.startSubroutine).declareAll
        (d.parameters.parameters.map Parameter.declaration)).declareAll
          (d.vars.flatMap VarDec.declarations) =
      c.startSubroutine.declareAll (d.declarations c.className) := by
  have hr : receive (.keyword d.kind.keyword) c.startSubroutine =
      c.startSubroutine.declareAll (d.kind.receiver c.className) := by
    cases d.kind <;> rfl
  rw [d.word.terminal_eq, hr, SubroutineDec.declarations, SubroutineDec.argumentDeclarations,
    Context.declareAll_append, Context.declareAll_append]
  rfl

theorem subroutine_iff (hK : OfClass K) :
    K.subroutine c w ↔ Language.via .startSubroutine
      (.leaf [.keyword .constructor, .keyword .function, .keyword .method] fun word =>
        K.signatures.via (receive word.token.terminal)) c w := by
  constructor
  · rintro ⟨d, k, hk, rfl⟩
    have hw : d.word.token.terminal ∈
        [.keyword .constructor, .keyword .function, .keyword .method] := by
      rw [d.word.terminal_eq]
      cases d.kind <;> simp [SubroutineKind.keyword]
    refine ⟨⟨d.word.token, hw⟩, _, signatures_iff.mpr ⟨d.type, d.name, d.parens, d.parameters, _,
      bodies_iff.mpr ⟨d.braces, d.vars, d.body, k, ?_, rfl⟩, rfl⟩, ?_⟩
    · rw [declareAll_receive]
      exact hK _ _ (startSubroutine_declareAll c d).symm k hk
    · rw [declareAll_receive]
      simp [subroutineMarks, SubroutineDec.marks]
  · rintro ⟨word, _, h, rfl⟩
    obtain ⟨type, name, parens, parameters, _, hb, rfl⟩ := signatures_iff.mp h
    obtain ⟨braces, vars, body, k, hk, rfl⟩ := bodies_iff.mp hb
    obtain ⟨kind, hkind⟩ := exists_kind word
    let d : SubroutineDec :=
      { kind, word := ⟨word.token, by simp [hkind]⟩, type, name, parens, parameters, braces, vars, body }
    have hd := declareAll_receive c d
    rw [hd] at hk
    refine ⟨d, k, hK _ _ (startSubroutine_declareAll c d) k hk, ?_⟩
    rw [hd]
    simp [d, subroutineMarks, SubroutineDec.marks]

theorem silent_startSubroutine : Silent .startSubroutine startSubroutine :=
  fun _ => ⟨(), _, rfl, rfl, rfl, rfl⟩

theorem silent_prologue (kind : Terminal) : Silent id (prologue kind) := by
  unfold prologue
  split
  · refine silent_get.andThen fun _ => (silent_emit _).andThen fun _ => ?_
    exact (silent_emit _).andThen fun _ => silent_emit _
  · exact (silent_emit _).andThen fun _ => silent_emit _
  · exact silent_pure _

theorem subroutineBody_tracks (name : Text) (kind : Terminal) :
    Tracks n (subroutineBody name kind n) K.bodies fun _ => K := by
  refine .within ((token_tracks (by simp)).bind fun _ => ?_)
  refine (Tracks.discard (varDecs_tracks ?_)).bind fun _ => silent_get.skip fun s => ?_
  · exact starts_statements (starts_token rfl) fun st rest => by cases st <;> simp [varDecBy]
  · refine (silent_emit _).skip fun _ => (silent_note _).skip fun _ => (silent_prologue _).skip fun _ => ?_
    exact (statements_tracks n _ (starts_token rfl)).bind fun _ => token_tracks (by simp)

theorem receiver_tracks {k : Pass Unit} {H : Unit → Language} (kind : Terminal)
    (hk : Tracks n k K H) :
    Tracks n (if kind = .keyword .method then do
        declare "this" (← get).className .argument
        k
      else k) (K.via (receive kind)) H := by
  by_cases hm : kind = .keyword .method
  · subst hm
    have h : Silent (receive (.keyword .method))
        (do declare "this" (← get).className .argument : Pass Unit) :=
      fun _ => ⟨(), _, rfl, rfl, rfl, rfl⟩
    exact h.bind fun _ => hk
  · have hr : receive kind = id := by
      funext c
      exact if_neg hm
    rw [if_neg hm, hr]
    exact hk

theorem subroutineDec_tracks (hK : OfClass K) : Tracks n (subroutineDec n) K.subroutine fun _ => K := by
  refine .within (.congr (silent_startSubroutine.bind fun _ => ?_) fun _ _ => subroutine_iff hK)
  refine (expect_bind (by simp) fun word => receiver_tracks _ ?_).mono (Nat.le_succ n)
  refine (leaf_tracks (by simp [typeTerminals])).bind fun _ => ?_
  refine (expect_bind (by simp) fun name => (silent_ownSubroutine _).skip fun _ => ?_).mono (Nat.le_succ n)
  refine (token_tracks (by simp)).bind fun _ => (parameterList_tracks (starts_token rfl)).bind fun _ => ?_
  exact (token_tracks (by simp)).bind fun _ => subroutineBody_tracks _ _

theorem subroutines_tracks (hK : OfClass K) (hs : Starts (subroutineDecBy n · = none) K) :
    Tracks n (repeatBy (subroutineDecBy n) n) K.subroutines fun _ => K := by
  refine repeatBy_tracks rfl (fun _ _ => subroutines_iff) hs ?_ ?_ n (Nat.le_refl n)
  · rintro c _ ⟨d, k, -, rfl⟩
    cases hd : d.kind <;>
      simp [subroutineMarks, SubroutineDec.marks, hd, SubroutineKind.keyword, subroutineDecBy]
  · intro t body h
    unfold subroutineDecBy at h
    split at h <;> cases h
    · exact subroutineDec_tracks hK.subroutines _
    · exact subroutineDec_tracks hK.subroutines _
    · exact subroutineDec_tracks hK.subroutines _

/-- The language of a class and nothing after it. -/
def Language.classes : Language :=
  token (.keyword .class) (leaf [.ident] fun name => via (fun c => { c with className := name.lexeme })
    (token (.punct .lbrace) (declaringAll ClassVarDec.tokens ClassVarDec.declarations
      (subroutines (token (.punct .rbrace) nil)))))

theorem starts_subroutines :
    Starts (classVarDecBy n · = none) (Language.token (.punct .rbrace) K).subroutines := by
  rintro c _ ⟨_ | ⟨d, ds⟩, _, ⟨closing, k, -, rfl⟩, rfl⟩
  · simp [classVarDecBy]
  · cases hd : d.kind <;>
      simp [subroutineMarks, SubroutineDec.marks, hd, SubroutineKind.keyword, classVarDecBy]

theorem classDec_tracks : Tracks n (classDec n) .classes fun _ => .nil := by
  refine .within ((token_tracks (by simp)).bind fun _ => ?_)
  refine (expect_bind (by simp) fun name => ?_).mono (Nat.le_succ n)
  refine Silent.bind (fun _ => ⟨(), _, rfl, rfl, rfl, rfl⟩) fun _ => (silent_note _).skip fun _ => ?_
  refine (token_tracks (by simp)).bind fun _ => ?_
  refine (Tracks.discard (classVarDecs_tracks starts_subroutines)).bind fun _ => ?_
  refine (Tracks.discard (subroutines_tracks ?_ (starts_token rfl))).bind fun _ => token_tracks (by simp)
  rintro c c' _ _ ⟨l, k, hk, rfl⟩
  exact ⟨l, k, hk, rfl⟩

theorem wholeClass_tracks : Tracks n (wholeClass n) .classes fun _ => .nil := by
  refine classDec_tracks.bind fun _ => .peek_bind fun t => ?_
  by_cases ht : t = .eof
  · simp only [ht, ne_eq, not_true_eq_false, if_false]
    exact TracksAt.pure (G := fun _ => .nil) ()
  · simp only [ht, ne_eq, not_false_eq_true, if_true]
    refine .reject ?_ (by simp)
    rintro c _ rfl
    exact fun h => ht h.symm

theorem subroutineMarks_of_inClass {className : Text} {ofClass : List Declaration}
    (h : c.InClass className ofClass) (d : SubroutineDec) :
    subroutineMarks c d = d.marks (d.env className ofClass) := by
  obtain rfl := h.className
  unfold subroutineMarks
  rw [h.env_subroutine]

/-- In the context in which a pass starts, the words are those of the derivation trees. -/
theorem classes_iff (h : c.scopes.ofClass = {}) : Language.classes c w ↔ ∃ x : ClassDec, x.marks = w := by
  constructor
  · rintro ⟨word, _, ⟨name, _, ⟨lbrace, _, ⟨vars, _, ⟨ds, _, ⟨rbrace, _, rfl, rfl⟩, rfl⟩, rfl⟩, rfl⟩, rfl⟩,
      rfl⟩
    refine ⟨⟨word, name, ⟨lbrace, rbrace⟩, vars, ds⟩, ?_⟩
    have hm := subroutineMarks_of_inClass (inClass_classVarDecs name.lexeme vars h)
    simp [ClassDec.marks, ClassDec.declarations, funext hm]
  · rintro ⟨⟨word, name, braces, vars, ds⟩, rfl⟩
    have hm := subroutineMarks_of_inClass (inClass_classVarDecs name.lexeme vars h)
    refine ⟨word, _, ⟨name, _, ⟨braces.opening, _, ⟨vars, _, ⟨ds, _, ⟨braces.closing, _, rfl, rfl⟩, rfl⟩,
      rfl⟩, rfl⟩, rfl⟩, ?_⟩
    simp [ClassDec.marks, ClassDec.declarations, funext hm]

end Jack.Pass
