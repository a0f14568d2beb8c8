import Jack.Proofs.Accepting.Statement
import Jack.Proofs.Reading.Class

/-! Only classes are accepted: where the pass succeeds, it has had the effect of a tree. -/

namespace Jack.Pass

open Jack.Tree

variable {c : Context} {n : Nat} {className : Text} {ofClass : List Declaration}

theorem declareNext_ensures (type : Text) (storage : Storage) :
    Ensures (declareNext type storage) c fun _ e => ∃ x : Name, e = Name.effect type storage x :=
  .bind (ident_ensures fun x => .of_runs (fun _ => declare_runs _ _ _) rfl ⟨x, rfl⟩)

theorem afterComma_ensures {α : Type} {p : Pass Unit} {f : α → Effect}
    (hp : ∀ c, Ensures p c fun _ e => ∃ x, e = f x) (m : Nat) :
    Ensures (repeatBy (afterComma p) m) c fun _ e =>
      ∃ items : List (Further α), e = .concat (items.map (Further.effect f)) := by
  refine repeatBy_ensures_items (I := fun _ => True) (fun _ _ _ => trivial) ?_ m trivial
  intro c t body _ h
  unfold afterComma at h
  split at h <;> cases h
  refine .bind (punct_ensures fun comma => (hp c).mono ?_)
  rintro _ _ ⟨x, rfl⟩
  exact ⟨⟨comma, x⟩, rfl⟩

theorem varNames_ensures (storage : Storage) :
    Ensures (varNames storage n) c fun _ e => ∃ v : VarNames, e = v.effect storage := by
  refine .bind (expect_ensures (by simp [typeTerminals]) fun type => ?_)
  refine .bind ((declareNext_ensures _ _).mono ?_)
  rintro _ _ ⟨first, rfl⟩
  refine .bind (.discard ((afterComma_ensures (fun _ => declareNext_ensures _ _) n).mono ?_))
  rintro _ _ ⟨more, rfl⟩
  exact punct_ensures fun semicolon =>
    ⟨⟨type, first, more, semicolon⟩, (VarNames.effect_eq storage ⟨_, _, _, _⟩).symm⟩

theorem parameter_ensures : Ensures parameter c fun _ e => ∃ p : Parameter, e = p.effect := by
  refine .bind (expect_ensures (by simp [typeTerminals]) fun type => ?_)
  refine (declareNext_ensures _ _).mono ?_
  rintro _ _ ⟨name, rfl⟩
  refine ⟨⟨type, name⟩, ?_⟩
  apply Effect.ext <;> simp [Parameter.tokens, Parameter.entries, Parameter.declaration]

theorem parameterList_ensures :
    Ensures (parameterList n) c fun _ e => ∃ ps : ParameterList, e = ps.effect := by
  refine within_ensures (.peek_bind fun t => ?_)
  split
  · exact .pure ⟨.none, rfl⟩
  · refine .bind (parameter_ensures.mono ?_)
    rintro _ _ ⟨first, rfl⟩
    refine .discard ((afterComma_ensures (fun _ => parameter_ensures) n).mono ?_)
    rintro _ _ ⟨more, rfl⟩
    exact ⟨.some first more, (ParameterList.effect_some first more).symm⟩

theorem varDec_ensures : Ensures (varDec n) c fun _ e => ∃ d : VarDec, e = d.effect := by
  refine within_ensures (.bind (keyword_ensures fun word => (varNames_ensures .var).mono ?_))
  rintro _ _ ⟨vars, rfl⟩
  refine ⟨⟨word, vars⟩, ?_⟩
  apply Effect.ext <;> simp [VarDec.tokens, VarDec.entries, VarDec.declarations]

theorem varDecs_ensures :
    Ensures (discard <| repeatBy (varDecBy n) n) c fun _ e =>
      ∃ vars : List VarDec, e = varDecsEffect vars := by
  refine .discard (.mono (repeatBy_ensures_items (f := VarDec.effect) (I := fun _ => True)
    (fun _ _ _ => trivial) ?_ n trivial) ?_)
  · intro c t body _ h
    unfold varDecBy at h
    split at h <;> cases h
    exact varDec_ensures
  · rintro _ _ ⟨vars, rfl⟩
    exact ⟨vars, concat_varDecs vars⟩

theorem classVarDec_ensures :
    Ensures (classVarDec n) c fun _ e => ∃ d : ClassVarDec, e = d.effect := by
  refine within_ensures (.bind (expect_ensures (by simp) fun word => ?_))
  refine (varNames_ensures _).mono ?_
  rintro _ _ ⟨vars, rfl⟩
  by_cases hf : word.token.terminal = .keyword .field
  · refine ⟨⟨.field, ⟨word.token, by simp [hf, ClassStorage.keyword]⟩, vars⟩, ?_⟩
    rw [if_pos hf]
    apply Effect.ext <;> simp [ClassVarDec.tokens, ClassVarDec.entries, ClassVarDec.declarations,
      ClassStorage.storage]
  · have hs : word.token.terminal = .keyword .static := by simpa [hf] using word.terminal_mem
    refine ⟨⟨.static, ⟨word.token, by simp [hs, ClassStorage.keyword]⟩, vars⟩, ?_⟩
    rw [if_neg hf]
    apply Effect.ext <;> simp [ClassVarDec.tokens, ClassVarDec.entries, ClassVarDec.declarations,
      ClassStorage.storage]

theorem classVarDecs_ensures :
    Ensures (discard <| repeatBy (classVarDecBy n) n) c fun _ e =>
      ∃ vars : List ClassVarDec, e = classVarDecsEffect vars := by
  refine .discard (.mono (repeatBy_ensures_items (f := ClassVarDec.effect) (I := fun _ => True)
    (fun _ _ _ => trivial) ?_ n trivial) ?_)
  · intro c t body _ h
    unfold classVarDecBy at h
    split at h <;> cases h
    · exact classVarDec_ensures
    · exact classVarDec_ensures
  · rintro _ _ ⟨vars, rfl⟩
    exact ⟨vars, concat_classVarDecs vars⟩

/-- The kind of a subroutine and the word it starts with. -/
theorem exists_kind (word : Leaf [.keyword .constructor, .keyword .function, .keyword .method]) :
    ∃ kind : SubroutineKind, word.token.terminal = .keyword kind.keyword := by
  have hm := word.terminal_mem
  simp only [List.mem_cons, List.not_mem_nil, or_false] at hm
  obtain h | h | h := hm
  · exact ⟨.constructor, h⟩
  · exact ⟨.function, h⟩
  · exact ⟨.method, h⟩

theorem prologue_ensures (kind : SubroutineKind) {Q : Unit → Effect → Prop}
    (h : Q () { code := kind.prologue (c.scopes.count .field) }) :
    Ensures (prologue (.keyword kind.keyword)) c Q :=
  .of_runs (fun _ => prologue_runs kind) rfl h

theorem subroutineBody_ensures (name : Text) (kind : SubroutineKind) :
    Ensures (subroutineBody name (.keyword kind.keyword) n) c fun _ e =>
      ∃ braces vars body, e = bodyEffect c name kind braces vars body := by
  refine within_ensures (.bind (punct_ensures fun opening => .bind (varDecs_ensures.mono ?_)))
  rintro _ _ ⟨vars, rfl⟩
  refine .get_bind fun s hs => ?_
  rw [scopes_of_context hs]
  refine .bind (emit_ensures (.skip (fun _ => note_runs _) (.bind (prologue_ensures kind ?_))))
  refine .bind ((statements_ensures n _).mono ?_)
  rintro _ _ ⟨body, rfl⟩
  exact punct_ensures fun closing => ⟨⟨opening, closing⟩, vars, body, rfl⟩

theorem receiver_ensures {k : Pass Unit} {Q : Unit → Effect → Prop} (kind : SubroutineKind)
    (hk : Ensures k (c.declareAll (kind.receiver c.className)) fun a e =>
      Q a (.update (.declareAll (kind.receiver c.className)) ++ e)) :
    Ensures (if Terminal.keyword kind.keyword = .keyword .method then do
        declare "this" (← get).className .argument
        k
      else k) c Q := by
  have hn : ∀ s : State, s.context = c → s.className = c.className := fun _ hs =>
    congrArg Context.className hs
  cases kind with
  | method =>
    refine .get_bind fun s hs => ?_
    rw [hn s hs]
    exact .bind (.of_runs (fun _ => declare_runs _ _ _) rfl hk)
  | constructor => exact hk.mono fun _ e he => e.empty_append ▸ he
  | function => exact hk.mono fun _ e he => e.empty_append ▸ he

theorem subroutineDec_ensures (h : c.InClass className ofClass) :
    Ensures (subroutineDec n) c fun _ e => ∃ d : SubroutineDec, e = d.effect className ofClass := by
  obtain rfl := h.className
  refine within_ensures (.bind (.of_runs (fun _ => startSubroutine_runs) rfl ?_))
  refine .bind (expect_ensures (by simp) fun word => ?_)
  obtain ⟨kind, hk⟩ := exists_kind word
  simp only [hk]
  refine receiver_ensures kind ?_
  refine .bind (.discard (expect_ensures (by simp [typeTerminals]) fun type => ?_))
  refine .bind (ident_ensures fun name => .skip (fun _ => ownSubroutine_runs _) ?_)
  refine .bind (punct_ensures fun opening => .bind (parameterList_ensures.mono ?_))
  rintro _ _ ⟨parameters, rfl⟩
  refine .bind (punct_ensures fun closing => (subroutineBody_ensures _ kind).mono ?_)
  rintro _ _ ⟨braces, vars, body, rfl⟩
  let d : SubroutineDec :=
    { kind, word := ⟨word.token, by simp [hk]⟩, type, name, parens := ⟨opening, closing⟩, parameters
      braces, vars, body }
  exact ⟨d, (d.effect_eq h).symm⟩

theorem subroutineDecs_ensures (h : c.InClass className ofClass) :
    Ensures (discard <| repeatBy (subroutineDecBy n) n) c fun _ e =>
      ∃ ds : List SubroutineDec, e = .concat (ds.map (SubroutineDec.effect className ofClass)) := by
  refine .discard (repeatBy_ensures_items (I := (·.InClass className ofClass))
    (fun d c h => SubroutineDec.inClass_effect h d) ?_ n h)
  intro c t body h hs
  unfold subroutineDecBy at hs
  split at hs <;> cases hs
  · exact subroutineDec_ensures h
  · exact subroutineDec_ensures h
  · exact subroutineDec_ensures h

theorem classDec_ensures {ctx : Context} (h : ctx.scopes.ofClass = {}) :
    Ensures (classDec n) ctx fun _ e => ∃ c : ClassDec, e = c.effect := by
  refine within_ensures (.bind (keyword_ensures fun word => .bind (ident_ensures fun name => ?_)))
  refine .bind (.of_runs (fun _ => className_runs _) rfl (.skip (fun _ => note_runs _) ?_))
  refine .bind (punct_ensures fun opening => .bind (classVarDecs_ensures.mono ?_))
  rintro _ _ ⟨vars, rfl⟩
  refine .bind ((subroutineDecs_ensures (inClass_classVarDecs _ _ h)).mono ?_)
  rintro _ _ ⟨subroutines, rfl⟩
  refine punct_ensures fun closing => ?_
  let c : ClassDec := { word, name, braces := ⟨opening, closing⟩, vars, subroutines }
  exact ⟨c, c.effect_eq.symm⟩

/-- A pass that succeeds has read a class and is at the end of input. -/
theorem wholeClass_ok {s s' : State} (h : s.scopes.ofClass = {}) (hs : wholeClass n s = .ok () s') :
    ∃ c : ClassDec, Took s c.effect s' ∧ s'.ahead = [] := by
  change EStateM.bind (classDec n) _ s = .ok () s' at hs
  unfold EStateM.bind at hs
  cases hd : classDec n s with
  | error err s₁ => simp [hd] at hs
  | ok a s₁ =>
    obtain ⟨_, ⟨c, rfl⟩, took⟩ := classDec_ensures h s a s₁ rfl hd
    simp only [hd] at hs
    change (if s₁.peek.terminal ≠ .eof then reject .endOfInput else pure () : Pass Unit) s₁ = _ at hs
    by_cases hp : s₁.peek.terminal = .eof
    · simp only [hp, ne_eq, not_true_eq_false, if_false] at hs
      cases hs
      exact ⟨c, took, by simp [State.ahead, hp]⟩
    · simp only [hp, ne_eq, not_false_eq_true, if_true] at hs
      cases hs

end Jack.Pass
