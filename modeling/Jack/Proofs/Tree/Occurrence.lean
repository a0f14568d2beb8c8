import Jack.Proofs.Tree.Class
import Mathlib.Data.List.Range

/-! Where the statements of a subroutine stand: each with the tokens in front of it. A statement is numbered
by how many of its keyword come before it. -/

namespace Jack.Tree

def keywordCount (k : Keyword) (tokens : List Token) : Nat :=
  tokens.countP (·.terminal = .keyword k)

section

variable (k : Keyword)

@[simp] theorem keywordCount_nil : keywordCount k [] = 0 := rfl

@[simp] theorem keywordCount_append (a b : List Token) :
    keywordCount k (a ++ b) = keywordCount k a + keywordCount k b :=
  List.countP_append

@[simp] theorem keywordCount_word {j : Keyword} (word : Word j) (rest : List Token) :
    keywordCount k (word.token :: rest) = (if j = k then 1 else 0) + keywordCount k rest := by
  simp [keywordCount, List.countP_cons, Nat.add_comm]

@[simp] theorem keywordCount_symbol {p : Punct} (symbol : Symbol p) (rest : List Token) :
    keywordCount k (symbol.token :: rest) = keywordCount k rest := by
  simp [keywordCount]

@[simp] theorem keywordCount_name (x : Name) (rest : List Token) :
    keywordCount k (x.token :: rest) = keywordCount k rest := by
  simp [keywordCount]

end

theorem keywordCount_leaf {k : Keyword} {terminals : List Terminal} (h : .keyword k ∉ terminals)
    (l : Leaf terminals) (rest : List Token) :
    keywordCount k (l.token :: rest) = keywordCount k rest := by
  have hl : l.token.terminal ≠ .keyword k := fun he => h (he ▸ l.terminal_mem)
  simp [keywordCount, hl]

theorem keywordCount_flatMap {k : Keyword} {α : Type} {f : α → List Token} {items : List α}
    (h : ∀ x ∈ items, keywordCount k (f x) = 0) : keywordCount k (items.flatMap f) = 0 := by
  induction items with
  | nil => rfl
  | cons x items ih =>
    rw [List.flatMap_cons, keywordCount_append, h x (by simp), ih fun y hy => h y (by simp [hy])]

theorem keywordCount_eq_zero {k : Keyword} {tokens : List Token}
    (h : ∀ t ∈ tokens, t.terminal ≠ .keyword k) : keywordCount k tokens = 0 :=
  List.countP_eq_zero.mpr fun t ht => by simpa using h t ht

/-! The keywords of an expression are its keyword constants. -/

mutual

theorem Term.exists_literal : (t : Term) → ∀ x ∈ t.tokens, ∀ k, x.terminal = .keyword k →
    ∃ l : Literal, l.keyword = k
  | .number _ => by simp
  | .string _ => by simp
  | .literal l _ => by simp
  | .var _ => by simp
  | .element _ _ index => by simpa [or_imp, forall_and] using index.exists_literal
  | .call c => by simpa using c.exists_literal
  | .paren _ e => by simpa [or_imp, forall_and] using e.exists_literal
  | .unary _ _ t => by simpa using t.exists_literal

theorem Expression.exists_literal : (e : Expression) → ∀ x ∈ e.tokens, ∀ k, x.terminal = .keyword k →
    ∃ l : Literal, l.keyword = k
  | .mk first rest => by
    simpa [or_imp, forall_and] using ⟨first.exists_literal, rest.exists_literal⟩

theorem Operations.exists_literal : (o : Operations) → ∀ x ∈ o.tokens, ∀ k,
    x.terminal = .keyword k → ∃ l : Literal, l.keyword = k
  | .nil => by simp
  | .cons _ _ t rest => by
    simpa [or_imp, forall_and] using ⟨t.exists_literal, rest.exists_literal⟩

theorem Call.exists_literal : (c : Call) → ∀ x ∈ c.tokens, ∀ k, x.terminal = .keyword k →
    ∃ l : Literal, l.keyword = k
  | .own _ _ args => by simpa [or_imp, forall_and] using args.exists_literal
  | .qualified _ _ _ _ args => by simpa [or_imp, forall_and] using args.exists_literal

theorem Arguments.exists_literal : (a : Arguments) → ∀ x ∈ a.tokens, ∀ k, x.terminal = .keyword k →
    ∃ l : Literal, l.keyword = k
  | .none => by simp
  | .some first rest => by
    simpa [or_imp, forall_and] using ⟨first.exists_literal, rest.exists_literal⟩

theorem MoreArguments.exists_literal : (a : MoreArguments) → ∀ x ∈ a.tokens, ∀ k,
    x.terminal = .keyword k → ∃ l : Literal, l.keyword = k
  | .nil => by simp
  | .cons _ e rest => by
    simpa [or_imp, forall_and] using ⟨e.exists_literal, rest.exists_literal⟩

end

/-- The keyword that a statement starts with. -/
def Statement.keyword : Statement → Keyword
  | .letVar .. | .letElement .. => .let
  | .ifThen .. | .ifElse .. => .if
  | .while .. => .while
  | .do .. => .do
  | .return .. | .returnValue .. => .return

def Statement.hasElse : Statement → Bool
  | .ifElse .. => true
  | _ => false

/-- A statement and the tokens of its subroutine in front of it. -/
structure Occurrence where
  before : List Token
  statement : Statement

/-- The number that a statement has among those that start with the given keyword. -/
def Occurrence.number (k : Keyword) (o : Occurrence) : Nat := keywordCount k o.before

mutual

/-- A statement and those inside it, in the order of their first tokens. -/
def Statement.occurrences (before : List Token) (st : Statement) : List Occurrence :=
  ⟨before, st⟩ ::
    match st with
    | .ifThen word parens cond braces body =>
      body.occurrences (before ++ word.token :: parens.tokens cond.tokens ++ [braces.opening.token])
    | .ifElse word parens cond braces body elseWord elseBraces elseBody =>
      body.occurrences (before ++ word.token :: parens.tokens cond.tokens ++ [braces.opening.token]) ++
        elseBody.occurrences (before ++ word.token :: parens.tokens cond.tokens ++
          braces.tokens body.tokens ++ [elseWord.token, elseBraces.opening.token])
    | .while word parens cond braces body =>
      body.occurrences (before ++ word.token :: parens.tokens cond.tokens ++ [braces.opening.token])
    | .letVar .. | .letElement .. | .do .. | .return .. | .returnValue .. => []

def Statements.occurrences (before : List Token) : Statements → List Occurrence
  | .nil => []
  | .cons first rest => first.occurrences before ++ rest.occurrences (before ++ first.tokens)

end

theorem Expression.keywordCount_tokens {k : Keyword} (hk : k = .if ∨ k = .while) (e : Expression) :
    keywordCount k e.tokens = 0 := by
  refine keywordCount_eq_zero fun t ht h => ?_
  obtain ⟨l, hl⟩ := e.exists_literal t ht k h
  obtain rfl | rfl := hk <;> cases l <;> cases hl

theorem Call.keywordCount_tokens {k : Keyword} (hk : k = .if ∨ k = .while) (c : Call) :
    keywordCount k c.tokens = 0 := by
  refine keywordCount_eq_zero fun t ht h => ?_
  obtain ⟨l, hl⟩ := c.exists_literal t ht k h
  obtain rfl | rfl := hk <;> cases l <;> cases hl

mutual

theorem Statement.keywordCount_if : (st : Statement) → keywordCount .if st.tokens = st.ifs
  | .letVar _ _ _ value _ => by simp [value.keywordCount_tokens]
  | .letElement _ _ _ index _ value _ => by
    simp [index.keywordCount_tokens, value.keywordCount_tokens]
  | .ifThen _ _ cond _ body => by simp [cond.keywordCount_tokens, body.keywordCount_if]
  | .ifElse _ _ cond _ body _ _ elseBody => by
    simp [cond.keywordCount_tokens, body.keywordCount_if, elseBody.keywordCount_if, Nat.add_assoc]
  | .while _ _ cond _ body => by simp [cond.keywordCount_tokens, body.keywordCount_if]
  | .do _ c _ => by simp [c.keywordCount_tokens]
  | .return _ _ => by simp
  | .returnValue _ value _ => by simp [value.keywordCount_tokens]

theorem Statements.keywordCount_if : (sts : Statements) → keywordCount .if sts.tokens = sts.ifs
  | .nil => by simp
  | .cons first rest => by simp [first.keywordCount_if, rest.keywordCount_if]

end

mutual

theorem Statement.keywordCount_while : (st : Statement) → keywordCount .while st.tokens = st.whiles
  | .letVar _ _ _ value _ => by simp [value.keywordCount_tokens]
  | .letElement _ _ _ index _ value _ => by
    simp [index.keywordCount_tokens, value.keywordCount_tokens]
  | .ifThen _ _ cond _ body => by simp [cond.keywordCount_tokens, body.keywordCount_while]
  | .ifElse _ _ cond _ body _ _ elseBody => by
    simp [cond.keywordCount_tokens, body.keywordCount_while, elseBody.keywordCount_while]
  | .while _ _ cond _ body => by simp [cond.keywordCount_tokens, body.keywordCount_while]
  | .do _ c _ => by simp [c.keywordCount_tokens]
  | .return _ _ => by simp
  | .returnValue _ value _ => by simp [value.keywordCount_tokens]

theorem Statements.keywordCount_while : (sts : Statements) →
    keywordCount .while sts.tokens = sts.whiles
  | .nil => by simp
  | .cons first rest => by simp [first.keywordCount_while, rest.keywordCount_while]

end

mutual

/-- A statement stands behind the tokens in front of it. -/
theorem Statement.append_prefix : (st : Statement) → (before : List Token) →
    ∀ o ∈ st.occurrences before, o.before ++ o.statement.tokens <+: before ++ st.tokens
  | .letVar .., _ => by simp [Statement.occurrences]
  | .letElement .., _ => by simp [Statement.occurrences]
  | .ifThen word parens cond braces body, before => by
    have hb := body.append_prefix
      (before ++ word.token :: parens.tokens cond.tokens ++ [braces.opening.token])
    intro o ho
    obtain rfl | ho := List.mem_cons.mp ho
    · exact List.prefix_rfl
    · exact (hb o ho).trans ⟨[braces.closing.token], by simp⟩
  | .ifElse word parens cond braces body elseWord elseBraces elseBody, before => by
    have hb := body.append_prefix
      (before ++ word.token :: parens.tokens cond.tokens ++ [braces.opening.token])
    have he := elseBody.append_prefix (before ++ word.token :: parens.tokens cond.tokens ++
      braces.tokens body.tokens ++ [elseWord.token, elseBraces.opening.token])
    intro o ho
    obtain rfl | ho := List.mem_cons.mp ho
    · exact List.prefix_rfl
    obtain ho | ho := List.mem_append.mp ho
    · exact (hb o ho).trans
        ⟨braces.closing.token :: elseWord.token :: elseBraces.tokens elseBody.tokens, by simp⟩
    · exact (he o ho).trans ⟨[elseBraces.closing.token], by simp⟩
  | .while word parens cond braces body, before => by
    have hb := body.append_prefix
      (before ++ word.token :: parens.tokens cond.tokens ++ [braces.opening.token])
    intro o ho
    obtain rfl | ho := List.mem_cons.mp ho
    · exact List.prefix_rfl
    · exact (hb o ho).trans ⟨[braces.closing.token], by simp⟩
  | .do .., _ => by simp [Statement.occurrences]
  | .return .., _ => by simp [Statement.occurrences]
  | .returnValue .., _ => by simp [Statement.occurrences]

theorem Statements.append_prefix : (sts : Statements) → (before : List Token) →
    ∀ o ∈ sts.occurrences before, o.before ++ o.statement.tokens <+: before ++ sts.tokens
  | .nil, _ => by simp [Statements.occurrences]
  | .cons first rest, before => by
    have hf := first.append_prefix before
    have hr := rest.append_prefix (before ++ first.tokens)
    intro o ho
    obtain ho | ho := List.mem_append.mp ho
    · exact (hf o ho).trans ⟨rest.tokens, by simp⟩
    · simpa using hr o ho

end

mutual

/-- Statements that start with one keyword are numbered one after another. -/
theorem Statement.numbers {k : Keyword} (hk : k = .if ∨ k = .while) : (st : Statement) →
    (before : List Token) →
    ((st.occurrences before).filter (·.statement.keyword = k)).map (·.number k) =
      List.range' (keywordCount k before) (keywordCount k st.tokens)
  | .letVar _ _ _ value _, before => by
    have hv := value.keywordCount_tokens hk
    obtain rfl | rfl := hk <;> simp [Statement.occurrences, Statement.keyword, hv]
  | .letElement _ _ _ index _ value _, before => by
    have hi := index.keywordCount_tokens hk
    have hv := value.keywordCount_tokens hk
    obtain rfl | rfl := hk <;> simp [Statement.occurrences, Statement.keyword, hi, hv]
  | .ifThen word parens cond braces body, before => by
    have hc := cond.keywordCount_tokens hk
    have hb := body.numbers hk
      (before ++ word.token :: parens.tokens cond.tokens ++ [braces.opening.token])
    obtain rfl | rfl := hk
    · simpa [Statement.occurrences, Statement.keyword, Occurrence.number, hc, Nat.add_comm 1,
        List.range'_succ] using hb
    · simpa [Statement.occurrences, Statement.keyword, hc] using hb
  | .ifElse word parens cond braces body elseWord elseBraces elseBody, before => by
    have hc := cond.keywordCount_tokens hk
    have hb := body.numbers hk
      (before ++ word.token :: parens.tokens cond.tokens ++ [braces.opening.token])
    have he := elseBody.numbers hk (before ++ word.token :: parens.tokens cond.tokens ++
      braces.tokens body.tokens ++ [elseWord.token, elseBraces.opening.token])
    obtain rfl | rfl := hk
    · have hn : keywordCount .if (Statement.ifElse word parens cond braces body elseWord elseBraces
          elseBody).tokens = keywordCount .if body.tokens + keywordCount .if elseBody.tokens + 1 := by
        simp [hc, Nat.add_comm 1, Nat.add_right_comm]
      rw [hn, List.range'_succ, Statement.occurrences, List.filter_cons_of_pos rfl, List.filter_append,
        List.map_cons, List.map_append, hb, he]
      simp [Occurrence.number, hc, ← Nat.add_assoc]
    · rw [Statement.occurrences, List.filter_cons_of_neg (by simp [Statement.keyword]),
        List.filter_append, List.map_append, hb, he]
      simp [hc]
  | .while word parens cond braces body, before => by
    have hc := cond.keywordCount_tokens hk
    have hb := body.numbers hk
      (before ++ word.token :: parens.tokens cond.tokens ++ [braces.opening.token])
    obtain rfl | rfl := hk
    · simpa [Statement.occurrences, Statement.keyword, hc] using hb
    · simpa [Statement.occurrences, Statement.keyword, Occurrence.number, hc, Nat.add_comm 1,
        List.range'_succ] using hb
  | .do _ c _, before => by
    have hc := c.keywordCount_tokens hk
    obtain rfl | rfl := hk <;> simp [Statement.occurrences, Statement.keyword, hc]
  | .return _ _, before => by
    obtain rfl | rfl := hk <;> simp [Statement.occurrences, Statement.keyword]
  | .returnValue _ value _, before => by
    have hv := value.keywordCount_tokens hk
    obtain rfl | rfl := hk <;> simp [Statement.occurrences, Statement.keyword, hv]

theorem Statements.numbers {k : Keyword} (hk : k = .if ∨ k = .while) : (sts : Statements) →
    (before : List Token) →
    ((sts.occurrences before).filter (·.statement.keyword = k)).map (·.number k) =
      List.range' (keywordCount k before) (keywordCount k sts.tokens)
  | .nil, before => by simp [Statements.occurrences]
  | .cons first rest, before => by
    have hf := first.numbers hk before
    have hr := rest.numbers hk (before ++ first.tokens)
    rw [keywordCount_append] at hr
    simp [Statements.occurrences, hf, hr]

end

section

variable {k : Keyword} (hk : k = .if ∨ k = .while)

include hk

theorem VarNames.keywordCount_tokens (v : VarNames) : keywordCount k v.tokens = 0 := by
  have ht : .keyword k ∉ Pass.typeTerminals := by
    obtain rfl | rfl := hk <;> simp [Pass.typeTerminals]
  have hr : keywordCount k (v.rest.flatMap fun f => [f.comma.token, f.item.token]) = 0 :=
    keywordCount_flatMap fun f _ => by simp
  simp [tokens, keywordCount_leaf ht, hr]

theorem ParameterList.keywordCount_tokens (ps : ParameterList) : keywordCount k ps.tokens = 0 := by
  have ht : .keyword k ∉ Pass.typeTerminals := by
    obtain rfl | rfl := hk <;> simp [Pass.typeTerminals]
  have hp : ∀ p : Parameter, keywordCount k p.tokens = 0 := fun p => by
    simp [Parameter.tokens, keywordCount_leaf ht]
  cases ps with
  | none => rfl
  | some first rest =>
    have hr : keywordCount k (rest.flatMap fun f => f.comma.token :: f.item.tokens) = 0 :=
      keywordCount_flatMap fun f _ => by simp [hp]
    simp [tokens, hp, hr]

end

namespace SubroutineDec

/-- The tokens in front of the statements. -/
def front (d : SubroutineDec) : List Token :=
  d.word.token :: d.type.token :: d.name.token :: d.parens.tokens d.parameters.tokens ++
    d.braces.opening.token :: d.vars.flatMap VarDec.tokens

theorem tokens_eq (d : SubroutineDec) :
    d.tokens = d.front ++ d.body.tokens ++ [d.braces.closing.token] := by
  simp [tokens, front]

theorem keywordCount_front {k : Keyword} (hk : k = .if ∨ k = .while) (d : SubroutineDec) :
    keywordCount k d.front = 0 := by
  have ht : .keyword k ∉ .keyword .void :: Pass.typeTerminals := by
    obtain rfl | rfl := hk <;> simp [Pass.typeTerminals]
  have hw : d.kind.keyword ≠ k := by
    obtain rfl | rfl := hk <;> cases d.kind <;> simp [SubroutineKind.keyword]
  have hp := d.parameters.keywordCount_tokens hk
  have hv : keywordCount k (d.vars.flatMap VarDec.tokens) = 0 := keywordCount_flatMap fun v _ => by
    obtain rfl | rfl := hk <;> simp [VarDec.tokens, v.vars.keywordCount_tokens]
  simp [front, keywordCount_leaf ht, hw, hp, hv]

theorem keywordCount_tokens {k : Keyword} (hk : k = .if ∨ k = .while) (d : SubroutineDec) :
    keywordCount k d.tokens = keywordCount k d.body.tokens := by
  simp [d.tokens_eq, d.keywordCount_front hk]

/-- The statements of a subroutine, nested ones among them. -/
def occurrences (d : SubroutineDec) : List Occurrence := d.body.occurrences d.front

theorem prefix_of_mem_occurrences (d : SubroutineDec) {o : Occurrence} (h : o ∈ d.occurrences) :
    o.before ++ o.statement.tokens <+: d.tokens := by
  rw [d.tokens_eq]
  exact (d.body.append_prefix d.front o h).trans ⟨_, rfl⟩

/-- The statements of a subroutine that start with one keyword are numbered from zero. -/
theorem numbers_occurrences {k : Keyword} (hk : k = .if ∨ k = .while) (d : SubroutineDec) :
    (d.occurrences.filter (·.statement.keyword = k)).map (·.number k) =
      List.range (keywordCount k d.tokens) := by
  rw [occurrences, d.body.numbers hk, d.keywordCount_front hk, d.keywordCount_tokens hk,
    List.range_eq_range']

end SubroutineDec

end Jack.Tree
