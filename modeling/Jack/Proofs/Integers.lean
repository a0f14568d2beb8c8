import Jack.Proofs.Numeral
import Jack.Proofs.SinglePass
import Mathlib.Data.List.Forall2

/-! Integer terms. An integer term is compiled to a push of the value of its numeral: where one is read, that
push is all that is added to the code, and the integer constants of a class are pushed in their order. -/

namespace Jack

open Jack.Tree

/-- An instruction pushes the integer that a token denotes, which is a word. -/
def Token.DenotedBy (t : Token) (i : Instruction) : Prop :=
  ∃ n : Numeral, n.text = t.lexeme ∧ 0 ≤ n.value ∧ n.value ≤ maxWord ∧ i = .push .constant n.value

theorem Token.denotedBy_of_word? {t : Token} {v : Nat} (h : t.word? = some v) :
    t.DenotedBy (.push .constant v) := by
  obtain ⟨n, ht, hn, hv⟩ := Text.word?_eq_some_iff.mp h
  have hlo : 0 ≤ n.value := by omega
  have hhi : n.value ≤ maxWord := by omega
  exact ⟨n, ht, hlo, hhi, by rw [hn]⟩

namespace Pass

variable {c : Context} {rest : List Token} {n : Nat}

/-- An integer term is read whatever follows it. -/
theorem integerTerm_runs (constant : Leaf [.number]) :
    Runs (term (n + 1)) c rest () ((Term.number constant).effect c) := by
  refine .congr (within_runs (.peek_bind (t := .number) ?_ (number_runs constant))) ?_
  · simp
  · apply Effect.ext <;> simp

/-- Where a term is read that starts with an integer token, the token is a word and its push is all the
code that is added. -/
theorem term_integer {s s' : State} (hp : s.peek.terminal = .number)
    (h : term (n + 1) s = .ok () s') :
    ∃ v, s.peek.word? = some v ∧ s'.code.toList = s.code.toList ++ [.push .constant v] := by
  let constant : Leaf [.number] := ⟨s.peek, by simp [hp]⟩
  have ha : s.ahead = ((Term.number constant).effect s.context).tokens ++ s.accept.ahead :=
    s.ahead_eq_cons (by simp [hp])
  have hr := integerTerm_runs (n := n) constant s rfl ha
  cases hw : s.peek.word? with
  | none =>
    have hf : ((Term.number constant).effect s.context).fault = some (.outOfRange s.peek) := by
      simp [Mention.fault, constant, hw]
    rw [hf] at hr
    obtain ⟨s₁, he⟩ := hr
    rw [h] at he
    cases he
  | some v =>
    have hf : ((Term.number constant).effect s.context).fault = none := by
      simp [Mention.fault, constant, hw]
    rw [hf] at hr
    obtain ⟨s₁, he, took⟩ := hr
    rw [h] at he
    cases he
    refine ⟨v, rfl, ?_⟩
    rw [took.code]
    simp [constant, hw]

end Pass

namespace Tree

/-- The integer constants among tokens. -/
def integers (tokens : List Token) : List Token := tokens.filter (·.terminal = .number)

@[simp] theorem integers_nil : integers [] = [] := rfl

@[simp] theorem integers_append (a b : List Token) : integers (a ++ b) = integers a ++ integers b :=
  List.filter_append ..

@[simp] theorem integers_number (l : Leaf [.number]) (rest : List Token) :
    integers (l.token :: rest) = l.token :: integers rest := by
  simp [integers]

@[simp] theorem integers_leaf {terminals : List Terminal} (h : .number ∉ terminals) (l : Leaf terminals)
    (rest : List Token) : integers (l.token :: rest) = integers rest := by
  have hl : l.token.terminal ≠ .number := fun he => h (he ▸ l.terminal_mem)
  simp [integers, hl]

theorem integers_flatMap {α : Type} {f : α → List Token} {items : List α}
    (h : ∀ x ∈ items, integers (f x) = []) : integers (items.flatMap f) = [] := by
  induction items with
  | nil => rfl
  | cons x items ih =>
    rw [List.flatMap_cons, integers_append, h x (by simp), ih fun y hy => h y (by simp [hy])]
    rfl

theorem VarNames.integers_tokens (v : VarNames) : integers v.tokens = [] := by
  have ht : .number ∉ Pass.typeTerminals := by simp [Pass.typeTerminals]
  have hr : integers (v.rest.flatMap fun f => [f.comma.token, f.item.token]) = [] :=
    integers_flatMap fun f _ => by simp
  simp [tokens, integers_leaf ht, hr]

theorem ParameterList.integers_tokens (ps : ParameterList) : integers ps.tokens = [] := by
  have ht : .number ∉ Pass.typeTerminals := by simp [Pass.typeTerminals]
  have hp : ∀ p : Parameter, integers p.tokens = [] := fun p => by
    simp [Parameter.tokens, integers_leaf ht]
  cases ps with
  | none => rfl
  | some first rest =>
    have hr : integers (rest.flatMap fun f => f.comma.token :: f.item.tokens) = [] :=
      integers_flatMap fun f _ => by simp [hp]
    simp [tokens, hp, hr]

/-! The integer constants of a tree are those that the pass has to check. -/

@[simp] def Mention.constant? : Mention → Option Token
  | .constant t => some t
  | .use _ => none

mutual

theorem Term.constants_eq : (t : Term) →
    t.mentions.filterMap Mention.constant? = integers t.tokens
  | .number _ => by simp
  | .string _ => by simp
  | .literal _ _ => by simp
  | .var _ => by simp
  | .element _ _ index => by simp [List.filterMap_cons, index.constants_eq]
  | .call c => by simp [c.constants_eq]
  | .paren _ e => by simp [e.constants_eq]
  | .unary _ _ t => by simp [t.constants_eq]

theorem Expression.constants_eq : (e : Expression) →
    e.mentions.filterMap Mention.constant? = integers e.tokens
  | .mk first rest => by simp [first.constants_eq, rest.constants_eq]

theorem Operations.constants_eq : (o : Operations) →
    o.mentions.filterMap Mention.constant? = integers o.tokens
  | .nil => by simp
  | .cons _ _ t rest => by simp [t.constants_eq, rest.constants_eq]

theorem Call.constants_eq : (c : Call) →
    c.mentions.filterMap Mention.constant? = integers c.tokens
  | .own _ _ args => by simp [args.constants_eq]
  | .qualified _ _ _ _ args => by simp [args.constants_eq]

theorem Arguments.constants_eq : (a : Arguments) →
    a.mentions.filterMap Mention.constant? = integers a.tokens
  | .none => by simp
  | .some first rest => by simp [first.constants_eq, rest.constants_eq]

theorem MoreArguments.constants_eq : (a : MoreArguments) →
    a.mentions.filterMap Mention.constant? = integers a.tokens
  | .nil => by simp
  | .cons _ e rest => by simp [e.constants_eq, rest.constants_eq]

end

mutual

theorem Statement.constants_eq : (st : Statement) →
    st.mentions.filterMap Mention.constant? = integers st.tokens
  | .letVar _ _ _ value _ => by simp [List.filterMap_cons, value.constants_eq]
  | .letElement _ _ _ index _ value _ => by
    simp [List.filterMap_cons, index.constants_eq, value.constants_eq]
  | .ifThen _ _ cond _ body => by simp [cond.constants_eq, body.constants_eq]
  | .ifElse _ _ cond _ body _ _ elseBody => by
    simp [cond.constants_eq, body.constants_eq, elseBody.constants_eq]
  | .while _ _ cond _ body => by simp [cond.constants_eq, body.constants_eq]
  | .do _ c _ => by simp [c.constants_eq]
  | .return _ _ => by simp
  | .returnValue _ value _ => by simp [value.constants_eq]

theorem Statements.constants_eq : (sts : Statements) →
    sts.mentions.filterMap Mention.constant? = integers sts.tokens
  | .nil => by simp
  | .cons first rest => by simp [first.constants_eq, rest.constants_eq]

end

/-! The integer constants of a tree are pushed in their order. -/

/-- The code of an integer constant. -/
def pushOf (t : Token) : Instruction := .push .constant (t.word?.getD 0)

section

open List

variable (env : Env)

mutual

theorem Term.pushes : (t : Term) → (integers t.tokens).map pushOf <+ t.code env
  | .number _ => by simp [pushOf]
  | .string _ => by simp
  | .literal _ _ => by simp
  | .var _ => by simp
  | .element _ _ index => by simpa using sublist_append_of_sublist_left index.pushes
  | .call c => by simpa using c.pushes
  | .paren _ e => by simpa using e.pushes
  | .unary _ _ t => by simpa using sublist_append_of_sublist_left t.pushes

theorem Expression.pushes : (e : Expression) → (integers e.tokens).map pushOf <+ e.code env
  | .mk first rest => by simpa using first.pushes.append rest.pushes

theorem Operations.pushes : (o : Operations) → (integers o.tokens).map pushOf <+ o.code env
  | .nil => by simp
  | .cons _ _ t rest => by simpa using t.pushes.append (rest.pushes.cons _)

theorem Call.pushes : (c : Call) → (integers c.tokens).map pushOf <+ c.code env
  | .own _ _ args => by simpa using (sublist_append_of_sublist_left args.pushes).cons _
  | .qualified _ _ _ _ args => by
    have ha := args.pushes
    rw [Call.code]
    split
    · simpa using (sublist_append_of_sublist_left ha).cons _
    · simpa using sublist_append_of_sublist_left ha

theorem Arguments.pushes : (a : Arguments) → (integers a.tokens).map pushOf <+ a.code env
  | .none => by simp
  | .some first rest => by simpa using first.pushes.append rest.pushes

theorem MoreArguments.pushes : (a : MoreArguments) → (integers a.tokens).map pushOf <+ a.code env
  | .nil => by simp
  | .cons _ e rest => by simpa using e.pushes.append rest.pushes

end

mutual

theorem Statement.pushes : (st : Statement) → (i w : Nat) →
    (integers st.tokens).map pushOf <+ st.code env i w
  | .letVar _ _ _ value _, _, _ => by
    simpa using sublist_append_of_sublist_left (value.pushes env)
  | .letElement _ _ _ index _ value _, _, _ => by
    have hv := value.pushes env
    simpa using (index.pushes env).append (((sublist_append_of_sublist_left hv).cons _).cons _)
  | .ifThen _ _ cond _ body, i, w => by
    have hb := body.pushes (i + 1) w
    simpa using (cond.pushes env).append
      ((((sublist_append_of_sublist_left hb).cons _).cons _).cons _)
  | .ifElse _ _ cond _ body _ _ elseBody, i, w => by
    have hb := body.pushes (i + 1) w
    have he := elseBody.pushes (i + 1 + body.ifs) (w + body.whiles)
    have hbe := hb.append (((he.append (nil_sublist [.label (.ifEnd i)])).cons
      (.label (.ifFalse i))).cons (.goto (.ifEnd i)))
    simpa using (cond.pushes env).append (((hbe.cons _).cons _).cons _)
  | .while _ _ cond _ body, i, w => by
    have hb := body.pushes i (w + 1)
    simpa using ((cond.pushes env).append (((sublist_append_of_sublist_left hb).cons _).cons _)).cons _
  | .do _ c _, _, _ => by simpa using sublist_append_of_sublist_left (c.pushes env)
  | .return _ _, _, _ => by simp
  | .returnValue _ value _, _, _ => by simpa using sublist_append_of_sublist_left (value.pushes env)

theorem Statements.pushes : (sts : Statements) → (i w : Nat) →
    (integers sts.tokens).map pushOf <+ sts.code env i w
  | .nil, _, _ => by simp
  | .cons first rest, i, w => by
    simpa using (first.pushes i w).append (rest.pushes (i + first.ifs) (w + first.whiles))

end

end

/-- The integer constants of a subroutine are those of its statements. -/
theorem SubroutineDec.integers_tokens (d : SubroutineDec) :
    integers d.tokens = integers d.body.tokens := by
  have ht : .number ∉ .keyword .void :: Pass.typeTerminals := by simp [Pass.typeTerminals]
  have hv : integers (d.vars.flatMap VarDec.tokens) = [] :=
    integers_flatMap fun v _ => by simp [VarDec.tokens, v.vars.integers_tokens]
  simp [tokens, integers_leaf ht, d.parameters.integers_tokens, hv]

theorem ClassDec.integers_tokens (c : ClassDec) :
    integers c.tokens = c.subroutines.flatMap fun d => integers d.body.tokens := by
  have hv : integers (c.vars.flatMap ClassVarDec.tokens) = [] :=
    integers_flatMap fun v _ => by simp [ClassVarDec.tokens, v.vars.integers_tokens]
  have hs : integers (c.subroutines.flatMap SubroutineDec.tokens) =
      c.subroutines.flatMap fun d => integers d.body.tokens := by
    induction c.subroutines with
    | nil => rfl
    | cons d ds ih => simp only [List.flatMap_cons, integers_append, d.integers_tokens, ih]
  simp [tokens, hv, hs]

theorem ClassDec.pushes (c : ClassDec) : ((integers c.tokens).map pushOf).Sublist c.code := by
  rw [c.integers_tokens, code, List.map_flatMap]
  induction c.subroutines with
  | nil => exact .slnil
  | cons d ds ih =>
    have hd := d.body.pushes (d.env c.name.lexeme c.declarations) 0 0
    exact ((List.sublist_append_of_sublist_right hd).cons _).append ih

/-- The integer constants of a class without fault are words. -/
theorem ClassDec.exists_word {c : ClassDec} (h : c.ConstantsFit) :
    ∀ t ∈ integers c.tokens, ∃ v, t.word? = some v := by
  intro t ht
  rw [c.integers_tokens] at ht
  obtain ⟨d, hd, ht⟩ := List.mem_flatMap.mp ht
  rw [← d.body.constants_eq] at ht
  obtain ⟨m, hm, hc⟩ := List.mem_filterMap.mp ht
  cases m with
  | use x => cases hc
  | constant t' =>
    cases hc
    exact h d hd t hm

end Tree

/-- A text is read as a word exactly if it is a numeral of any length whose value is one; where an integer
term is read, the push of that value is all that it adds to the code; and the integer constants of a source
that compiles are pushed with their values in their order. -/
theorem numerals_exact :
    (∀ (t : Token) (v : Nat), t.word? = some v ↔
      ∃ n : Numeral, n.text = t.lexeme ∧ n.value = v ∧ v ≤ maxWord) ∧
    (∀ (k : Nat) (s s' : Pass.State), s.peek.terminal = .number → Pass.term (k + 1) s = .ok () s' →
      ∃ i, s.peek.DenotedBy i ∧ s'.code.toList = s.code.toList ++ [i]) ∧
    ∀ (source : Source) (u : Compiled), (compile source).outcome = .ok u →
      ∃ pushes, pushes.Sublist u.instructions ∧
        List.Forall₂ Token.DenotedBy (integers source.beforeEnd) pushes := by
  refine ⟨fun t v => Text.word?_eq_some_iff, ?_, ?_⟩
  · intro k s s' hp h
    obtain ⟨v, hv, hc⟩ := Pass.term_integer hp h
    exact ⟨_, Token.denotedBy_of_word? hv, hc⟩
  · intro source u h
    obtain ⟨c, hc, hf, rfl⟩ := exists_class_of_ok h
    have hw := ClassDec.exists_word (c.fault_effect_eq_none_iff.mp hf).1
    refine ⟨_, c.pushes, ?_⟩
    rw [← hc, List.forall₂_map_right_iff, List.forall₂_same]
    intro t ht
    obtain ⟨v, hv⟩ := hw t ht
    have hp : pushOf t = .push .constant v := by rw [pushOf, hv, Option.getD_some]
    exact hp ▸ Token.denotedBy_of_word? hv

/-- Leading zeros and signs are free, an integer term adds its push, and a class its pushes in order. -/
theorem numerals_exact_samples :
    Token.word? ⟨.number, "0000000000000000000000032767", 1⟩ = some 32767 ∧
    Token.word? ⟨.number, "-0", 1⟩ = some 0 ∧
    (∃ i, Token.DenotedBy ⟨.number, "007", 1⟩ i ∧ [i] = [.push .constant 7]) ∧
    ∃ pushes, pushes.Sublist Counter.tree.code ∧
      List.Forall₂ Token.DenotedBy (integers Counter.source.beforeEnd) pushes := by
  obtain ⟨hw, ht, hc⟩ := numerals_exact
  refine ⟨?_, ?_, ?_, hc Counter.source _ Counter.outcome_source⟩
  · let zeros : List (Fin 10) := List.replicate 23 0
    exact (hw _ _).mpr ⟨⟨.none, zeros ++ [3, 2, 7, 6, 7], by decide⟩, by decide, by decide, by decide⟩
  · exact (hw _ _).mpr ⟨⟨.minus, [0], by decide⟩, by decide, by decide, by decide⟩
  · let s := Pass.State.start (.replay [⟨.number, "007", 1⟩])
    have hs : ∃ s', Pass.term 1 s = .ok () s' ∧ s'.code.toList = [.push .constant 7] := ⟨_, rfl, rfl⟩
    obtain ⟨s', hr, h7⟩ := hs
    obtain ⟨i, hi, hcode⟩ := ht 0 s s' rfl hr
    exact ⟨i, hi, by rw [← h7, hcode]; rfl⟩

end Jack
