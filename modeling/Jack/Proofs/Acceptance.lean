import Jack.Compile.Unit
import Jack.Proofs.Accepting.Class

/-! Which sources compile. A source compiles exactly where its tokens up to the end of input are those of
a class, every integer constant in it is a word and every name used as a variable is declared. What is
compiled is then the name, the code and the trace of that class. -/

namespace Jack

/-- The tokens before the first end of input. -/
def Source.beforeEnd (source : Source) : List Token :=
  source.tokens.takeWhile (·.terminal ≠ .eof)

theorem Declaration.isSome_find? (x : Text) (ds : List Declaration) :
    (Declaration.find? x ds).isSome ↔ x ∈ ds.map Declaration.name := by
  induction ds with
  | nil => simp [find?]
  | cons d ds ih =>
    by_cases h : d.name = x
    · simp [find?, h]
    · simpa [find?, h, Ne.symm h] using ih

namespace Tree

/-- Tokens of a class that compiles. -/
def IsClass (tokens : List Token) : Prop :=
  ∃ c : ClassDec, c.tokens = tokens ∧ c.ConstantsFit ∧ c.WellScoped

theorem fault_eq_none_iff (env : Env) (mentions : List Mention) :
    fault env mentions = none ↔ ∀ m ∈ mentions, m.fault env = none :=
  List.findSome?_eq_none_iff

theorem ClassDec.map_name_declarations (c : ClassDec) :
    c.declarations.map Declaration.name = c.variableNames := by
  simp [declarations, variableNames, ClassVarDec.declarations, List.map_flatMap,
    VarNames.map_name_declarations]

/-- A name stands for a variable in a subroutine exactly where one of that name is declared. -/
theorem isSome_find?_env (c : ClassDec) (d : SubroutineDec) (x : Text) :
    ((d.env c.name.lexeme c.declarations).find? x).isSome ↔
      x ∈ c.variableNames ∨ x ∈ d.parameterNames ∨ x ∈ d.localNames ∨
        d.kind = .method ∧ x = ("this" : Text) := by
  have ha : x ∈ d.argumentNames ↔ d.kind = .method ∧ x = ("this" : Text) ∨ x ∈ d.parameterNames := by
    unfold SubroutineDec.argumentNames
    cases d.kind <;> simp
  have hd : (d.declarations c.name.lexeme).map Declaration.name = d.argumentNames ++ d.localNames := by
    rw [SubroutineDec.declarations, List.map_append, d.map_name_argumentDeclarations,
      d.map_name_localDeclarations]
  simp only [SubroutineDec.env, Env.ofDeclarations, Option.isSome_or, Bool.or_eq_true,
    Declaration.isSome_find?, List.map_reverse, List.mem_reverse, hd, c.map_name_declarations,
    List.mem_append, ha]
  constructor
  · rintro (((h | h) | h) | h) <;> simp [h]
  · rintro (h | h | h | h) <;> simp [h]

/-- A class has no fault exactly where its constants fit and its names are declared. -/
theorem ClassDec.fault_effect_eq_none_iff (c : ClassDec) :
    c.effect.fault = none ↔ c.ConstantsFit ∧ c.WellScoped := by
  have hu : ∀ (env : Env) (x : Token),
      (Mention.use x).fault env = none ↔ (env.find? x.lexeme).isSome := by
    simp [Mention.fault, Option.isSome_iff_exists]
  have hw : ∀ (env : Env) (t : Token),
      (Mention.constant t).fault env = none ↔ ∃ value, t.word? = some value := by
    simp [Mention.fault, Option.isSome_iff_exists]
  simp only [effect, List.findSome?_eq_none_iff, List.mem_map, forall_exists_index, and_imp,
    forall_apply_eq_imp_iff₂, SubroutineDec.effect, fault_eq_none_iff]
  constructor
  · intro h
    refine ⟨fun d hd t ht => (hw _ t).mp (h d hd _ ht), fun d hd x hx => ?_⟩
    exact (isSome_find?_env c d x.lexeme).mp ((hu _ x).mp (h d hd _ hx))
  · rintro ⟨hf, hs⟩ d hd (x | t) hm
    · exact (hu _ x).mpr ((isSome_find?_env c d x.lexeme).mpr (hs d hd x hm))
    · exact (hw _ t).mpr (hf d hd t hm)

end Tree

open Jack.Tree

namespace Pass

/-- Subroutines leave the name of their class as it was. -/
theorem className_concat (className : Text) (ofClass : List Declaration) (ds : List SubroutineDec)
    (c : Context) :
    ((Effect.concat (ds.map (SubroutineDec.effect className ofClass))).context c).className =
      c.className := by
  induction ds generalizing c with
  | nil => rfl
  | cons d ds ih => exact (ih _).trans rfl

/-- A pass over a class that met no fault holds its name, its code and its trace. -/
theorem Took.compiled {s : State} {c : ClassDec} {source : Source}
    (h : Took (State.start source) c.effect s) :
    (⟨s.className, s.code.toList, s.trace.toList⟩ : Compiled) = ⟨c.name.lexeme, c.code, c.entries⟩ := by
  have hn : s.className = c.name.lexeme :=
    (congrArg Context.className h.context).trans (className_concat _ _ _ _)
  have hc : s.code.toList = c.code := by
    rw [h.code]
    rfl
  have ht : s.trace.toList = c.entries := by
    rw [h.trace]
    rfl
  rw [hn, hc, ht]

end Pass

open Pass

variable {source : Source}

/-- The tokens of a class compile to its name, its code and its trace, or to its first fault. -/
theorem outcome_of_tokens (c : ClassDec) (h : c.tokens = source.beforeEnd) :
    (compile source).outcome =
      match c.effect.fault with
      | none => .ok ⟨c.name.lexeme, c.code, c.entries⟩
      | some err => .error err := by
  have ha : (State.start source).ahead = c.effect.tokens ++ [] := by
    rw [List.append_nil, State.ahead_start]
    exact h.symm
  -- The pass may nest as deep as there are tokens, which no tree exceeds.
  have hl : c.tokens.length ≤ (State.start source).source.tokens.length + 1 := by
    have hw : c.tokens.length ≤ source.tokens.length := by
      rw [h]
      exact (List.takeWhile_sublist _).length_le
    have hs : source.tokens.length ≤ (State.start source).source.tokens.length + 1 := by
      unfold State.start Source.next
      cases source.tokens <;> simp
    omega
  have hs : (State.start source).context.scopes.ofClass = {} := rfl
  have hr := wholeClass_runs c hs hl (State.start source) rfl ha
  unfold compile State.compile EStateM.run
  cases hf : c.effect.fault with
  | none =>
    rw [hf] at hr
    obtain ⟨s, hs, took⟩ := hr
    simp only [hs, took.compiled]
  | some err =>
    rw [hf] at hr
    obtain ⟨s, hs⟩ := hr
    simp only [hs]

/-- Only the tokens of a class without fault compile. -/
theorem exists_class_of_ok {u : Compiled} (h : (compile source).outcome = .ok u) :
    ∃ c : ClassDec, c.tokens = source.beforeEnd ∧ c.effect.fault = none ∧
      u = ⟨c.name.lexeme, c.code, c.entries⟩ := by
  unfold compile State.compile EStateM.run at h
  split at h
  case h_1 s hs =>
    obtain ⟨c, took, ha⟩ := wholeClass_ok rfl hs
    cases h
    refine ⟨c, ?_, took.fault, took.compiled⟩
    have ht := took.ahead
    rw [ha, List.append_nil, State.ahead_start] at ht
    exact ht.symm
  case h_2 => cases h

theorem isClass_of_ok {u : Compiled} (h : (compile source).outcome = .ok u) :
    IsClass source.beforeEnd := by
  obtain ⟨c, ht, hf, _⟩ := exists_class_of_ok h
  exact ⟨c, ht, c.fault_effect_eq_none_iff.mp hf⟩

/-- A source compiles exactly where it holds a class, and in every other case a token is unexpected, an
integer constant out of range or a name undefined. -/
theorem compile_ok_iff_isClass (source : Source) :
    ((∃ u, (compile source).outcome = .ok u) ↔ IsClass source.beforeEnd) ∧
      (¬ IsClass source.beforeEnd ↔
        (∃ t expected, (compile source).outcome = .error (.unexpected t expected)) ∨
          (∃ t, (compile source).outcome = .error (.outOfRange t)) ∨
          ∃ t, (compile source).outcome = .error (.undefined t)) := by
  have hiff : (∃ u, (compile source).outcome = .ok u) ↔ IsClass source.beforeEnd := by
    constructor
    · rintro ⟨u, hu⟩
      exact isClass_of_ok hu
    · rintro ⟨c, ht, hc⟩
      have ho := outcome_of_tokens c ht
      rw [c.fault_effect_eq_none_iff.mpr hc] at ho
      exact ⟨_, ho⟩
  refine ⟨hiff, ?_⟩
  rw [← hiff]
  cases (compile source).outcome with
  | ok u => simp
  | error err => cases err <;> simp

end Jack
