import Jack.Proofs.StackDiscipline
import Jack.Proofs.Tree.Occurrence

/-! The labels of a subroutine. Each belongs to a conditional or a loop and has its number, which counts
the keywords in front of it in the subroutine. -/

namespace Jack

/-- Names of labels with a number tell them apart. -/
theorem Label.eq_of_name_eq {l k : Label} (hl : ∀ t, l ≠ .named t) (hk : ∀ t, k ≠ .named t)
    (h : l.name = k.name) : l = k := by
  have hw : ∀ l : Label, (∀ t, l ≠ .named t) → ∃ n, ∀ m, n < m → l.Within 0 0 m m := by
    intro l hl
    cases l with
    | named t => exact absurd rfl (hl t)
    | ifTrue n | ifFalse n | ifEnd n | whileExp n | whileEnd n => exact ⟨n, fun m hm => ⟨by omega, hm⟩⟩
  obtain ⟨a, ha⟩ := hw l hl
  obtain ⟨b, hb⟩ := hw k hk
  exact (ha (a + b + 1) (by omega)).eq_of_name_eq (hb (a + b + 1) (by omega)) h

namespace Tree

open Machine (label? labels targets)

namespace Occurrence

/-- The labels of a statement, without those of the statements inside it. -/
def labels (o : Occurrence) : List Label :=
  match o.statement with
  | .ifThen .. => [.ifTrue (o.number .if), .ifFalse (o.number .if)]
  | .ifElse .. => [.ifTrue (o.number .if), .ifFalse (o.number .if), .ifEnd (o.number .if)]
  | .while .. => [.whileExp (o.number .while), .whileEnd (o.number .while)]
  | _ => []

/-- A label belongs to a statement of its kind that has its number. -/
theorem mem_labels_iff (o : Occurrence) (l : Label) : l ∈ o.labels ↔
    match l with
    | .ifTrue n | .ifFalse n => o.statement.keyword = .if ∧ o.number .if = n
    | .ifEnd n => o.statement.hasElse = true ∧ o.number .if = n
    | .whileExp n | .whileEnd n => o.statement.keyword = .while ∧ o.number .while = n
    | .named _ => False := by
  cases hs : o.statement <;> cases l <;>
    simp [labels, hs, Statement.keyword, Statement.hasElse, eq_comm]

/-- The code of a statement where it stands. -/
def code (env : Env) (o : Occurrence) : List Instruction :=
  o.statement.code env (o.number .if) (o.number .while)

theorem code_mk {env : Env} {before : List Token} {st : Statement} {i w : Nat}
    (hi : keywordCount .if before = i) (hw : keywordCount .while before = w) :
    code env ⟨before, st⟩ = st.code env i w := by
  rw [← hi, ← hw]
  rfl

end Occurrence

section

variable (env : Env)

mutual

/-- The labels of a statement are its own and those of the statements inside it. -/
theorem Statement.mem_labels_iff : (st : Statement) → (before : List Token) → (l : Label) →
    (l ∈ labels (st.code env (keywordCount .if before) (keywordCount .while before)) ↔
      l ∈ (st.occurrences before).flatMap Occurrence.labels)
  | .letVar .., _, _ => by simp [Statement.occurrences, Occurrence.labels, Env.pop, label?]
  | .letElement .., _, _ => by simp [Statement.occurrences, Occurrence.labels, Env.push, label?]
  | .ifThen word parens cond braces body, before, l => by
    have hb := body.mem_labels_iff
      (before ++ word.token :: parens.tokens cond.tokens ++ [braces.opening.token]) l
    rw [Statement.occurrences, List.flatMap_cons, List.mem_append, ← hb]
    simp [Occurrence.labels, Occurrence.number, label?, cond.keywordCount_tokens, or_assoc, or_comm,
      or_left_comm]
  | .ifElse word parens cond braces body elseWord elseBraces elseBody, before, l => by
    have hb := body.mem_labels_iff
      (before ++ word.token :: parens.tokens cond.tokens ++ [braces.opening.token]) l
    have he := elseBody.mem_labels_iff (before ++ word.token :: parens.tokens cond.tokens ++
      braces.tokens body.tokens ++ [elseWord.token, elseBraces.opening.token]) l
    rw [Statement.occurrences, List.flatMap_cons, List.flatMap_append, List.mem_append,
      List.mem_append, ← hb, ← he]
    simp [Occurrence.labels, Occurrence.number, label?, cond.keywordCount_tokens,
      body.keywordCount_if, body.keywordCount_while, ← Nat.add_assoc, or_assoc, or_comm, or_left_comm]
  | .while word parens cond braces body, before, l => by
    have hb := body.mem_labels_iff
      (before ++ word.token :: parens.tokens cond.tokens ++ [braces.opening.token]) l
    rw [Statement.occurrences, List.flatMap_cons, List.mem_append, ← hb]
    simp [Occurrence.labels, Occurrence.number, label?, cond.keywordCount_tokens, or_assoc, or_comm,
      or_left_comm]
  | .do .., _, _ => by simp [Statement.occurrences, Occurrence.labels, label?]
  | .return .., _, _ => by simp [Statement.occurrences, Occurrence.labels, label?]
  | .returnValue .., _, _ => by simp [Statement.occurrences, Occurrence.labels, label?]

theorem Statements.mem_labels_iff : (sts : Statements) → (before : List Token) → (l : Label) →
    (l ∈ labels (sts.code env (keywordCount .if before) (keywordCount .while before)) ↔
      l ∈ (sts.occurrences before).flatMap Occurrence.labels)
  | .nil, _, _ => by simp [Statements.occurrences]
  | .cons first rest, before, l => by
    have hf := first.mem_labels_iff before l
    have hr := rest.mem_labels_iff (before ++ first.tokens) l
    rw [keywordCount_append, keywordCount_append, first.keywordCount_if, first.keywordCount_while] at hr
    rw [Statements.occurrences, List.flatMap_append, List.mem_append, ← hf, ← hr]
    simp

end

mutual

/-- The code of a statement stands in the code of the statement around it. -/
theorem Statement.code_infix : (st : Statement) → (before : List Token) → (i w : Nat) →
    keywordCount .if before = i → keywordCount .while before = w →
    ∀ o ∈ st.occurrences before, o.code env <:+: st.code env i w
  | .letVar .., _, _, _, rfl, rfl => by simp [Statement.occurrences, Occurrence.code, Occurrence.number]
  | .letElement .., _, _, _, rfl, rfl => by
    simp [Statement.occurrences, Occurrence.code, Occurrence.number]
  | .ifThen word parens cond braces body, before, i, w, hi, hw => by
    have hb := body.code_infix
      (before ++ word.token :: parens.tokens cond.tokens ++ [braces.opening.token]) (i + 1) w
      (by simp [hi, cond.keywordCount_tokens]) (by simp [hw, cond.keywordCount_tokens])
    intro o ho
    obtain rfl | ho := List.mem_cons.mp ho
    · exact Occurrence.code_mk hi hw ▸ List.infix_rfl
    · exact (hb o ho).trans ⟨cond.code env ++ [.ifGoto (.ifTrue i), .goto (.ifFalse i),
        .label (.ifTrue i)], [.label (.ifFalse i)], by simp⟩
  | .ifElse word parens cond braces body elseWord elseBraces elseBody, before, i, w, hi, hw => by
    have hb := body.code_infix
      (before ++ word.token :: parens.tokens cond.tokens ++ [braces.opening.token]) (i + 1) w
      (by simp [hi, cond.keywordCount_tokens]) (by simp [hw, cond.keywordCount_tokens])
    have he := elseBody.code_infix (before ++ word.token :: parens.tokens cond.tokens ++
      braces.tokens body.tokens ++ [elseWord.token, elseBraces.opening.token])
      (i + 1 + body.ifs) (w + body.whiles)
      (by simp [hi, cond.keywordCount_tokens, body.keywordCount_if, Nat.add_assoc])
      (by simp [hw, cond.keywordCount_tokens, body.keywordCount_while])
    intro o ho
    obtain rfl | ho := List.mem_cons.mp ho
    · exact Occurrence.code_mk hi hw ▸ List.infix_rfl
    obtain ho | ho := List.mem_append.mp ho
    · exact (hb o ho).trans ⟨cond.code env ++ [.ifGoto (.ifTrue i), .goto (.ifFalse i),
        .label (.ifTrue i)], .goto (.ifEnd i) :: .label (.ifFalse i) ::
          elseBody.code env (i + 1 + body.ifs) (w + body.whiles) ++ [.label (.ifEnd i)], by simp⟩
    · exact (he o ho).trans ⟨cond.code env ++ .ifGoto (.ifTrue i) :: .goto (.ifFalse i) ::
        .label (.ifTrue i) :: body.code env (i + 1) w ++ [.goto (.ifEnd i), .label (.ifFalse i)],
        [.label (.ifEnd i)], by simp⟩
  | .while word parens cond braces body, before, i, w, hi, hw => by
    have hb := body.code_infix
      (before ++ word.token :: parens.tokens cond.tokens ++ [braces.opening.token]) i (w + 1)
      (by simp [hi, cond.keywordCount_tokens]) (by simp [hw, cond.keywordCount_tokens])
    intro o ho
    obtain rfl | ho := List.mem_cons.mp ho
    · exact Occurrence.code_mk hi hw ▸ List.infix_rfl
    · exact (hb o ho).trans ⟨.label (.whileExp w) :: cond.code env ++ [.arithmetic .not,
        .ifGoto (.whileEnd w)], [.goto (.whileExp w), .label (.whileEnd w)], by simp⟩
  | .do .., _, _, _, rfl, rfl => by simp [Statement.occurrences, Occurrence.code, Occurrence.number]
  | .return .., _, _, _, rfl, rfl => by
    simp [Statement.occurrences, Occurrence.code, Occurrence.number]
  | .returnValue .., _, _, _, rfl, rfl => by
    simp [Statement.occurrences, Occurrence.code, Occurrence.number]

theorem Statements.code_infix : (sts : Statements) → (before : List Token) → (i w : Nat) →
    keywordCount .if before = i → keywordCount .while before = w →
    ∀ o ∈ sts.occurrences before, o.code env <:+: sts.code env i w
  | .nil, _, _, _, _, _ => by simp [Statements.occurrences]
  | .cons first rest, before, i, w, hi, hw => by
    have hf := first.code_infix before i w hi hw
    have hr := rest.code_infix (before ++ first.tokens) (i + first.ifs) (w + first.whiles)
      (by rw [keywordCount_append, hi, first.keywordCount_if])
      (by rw [keywordCount_append, hw, first.keywordCount_while])
    intro o ho
    obtain ho | ho := List.mem_append.mp ho
    · exact (hf o ho).trans (List.prefix_append _ _).isInfix
    · exact (hr o ho).trans (List.suffix_append _ _).isInfix

end

end

namespace SubroutineDec

variable (d : SubroutineDec) (className : Text) (ofClass : List Declaration)

/-- The labels that the conditionals and the loops of a subroutine need. -/
def Defines : Label → Prop
  | .ifTrue i | .ifFalse i => i < keywordCount .if d.tokens
  | .ifEnd i => ∃ o ∈ d.occurrences, o.statement.hasElse = true ∧ o.number .if = i
  | .whileExp j | .whileEnd j => j < keywordCount .while d.tokens
  | .named _ => False

theorem lt_keywordCount_iff {k : Keyword} (hk : k = .if ∨ k = .while) (n : Nat) :
    n < keywordCount k d.tokens ↔ ∃ o ∈ d.occurrences, o.statement.keyword = k ∧ o.number k = n := by
  rw [← List.mem_range, ← d.numbers_occurrences hk]
  simp [and_assoc]

theorem mem_labels_iff (l : Label) : l ∈ labels (d.code className ofClass) ↔ d.Defines l := by
  have hf (k : Keyword) (hk : k = .if ∨ k = .while) := d.keywordCount_front hk
  have hl : labels (d.code className ofClass) = labels (d.body.code (d.env className ofClass)
      (keywordCount .if d.front) (keywordCount .while d.front)) := by
    simp [code, label?, SubroutineKind.labels_prologue, hf]
  rw [hl, d.body.mem_labels_iff, List.mem_flatMap]
  change (∃ o ∈ d.occurrences, l ∈ o.labels) ↔ _
  simp only [Occurrence.mem_labels_iff]
  cases l with
  | ifTrue n | ifFalse n => exact (d.lt_keywordCount_iff (.inl rfl) n).symm
  | ifEnd n => rfl
  | whileExp n | whileEnd n => exact (d.lt_keywordCount_iff (.inr rfl) n).symm
  | named t => simp [Defines]

theorem mem_labels_of_mem_targets {l : Label} (h : l ∈ targets (d.code className ofClass)) :
    l ∈ labels (d.code className ofClass) := by
  have hc : d.code className ofClass =
      d.head className ofClass ++ d.body.code (d.env className ofClass) 0 0 := rfl
  rw [hc, Machine.targets_append, targets_head, List.nil_append] at h
  rw [hc, Machine.labels_append]
  exact List.mem_append_right _ (d.body.mem_labels _ 0 0 l h)

theorem Defines.ne_named {l : Label} (h : d.Defines l) (t : Text) : l ≠ .named t := by
  rintro rfl
  exact h

/-- The labels and the jumps of a block of code are those of a subroutine. -/
structure Labelled (env : Env) (block : List Instruction) : Prop where
  nodup : ((labels block).map Label.name).Nodup
  /-- A jump leads to exactly one label of the block. -/
  closed : ∀ l ∈ targets block, ((labels block).map Label.name).count l.name = 1
  defines : ∀ l : Label, (∀ t, l ≠ .named t) →
    (l.name ∈ (labels block).map Label.name ↔ d.Defines l)
  exists_defines : ∀ x ∈ (labels block).map Label.name, ∃ l, d.Defines l ∧ l.name = x
  /-- Conditionals are numbered in the order of their keywords, and so are loops. -/
  ifs : (d.occurrences.filter (·.statement.keyword = .if)).map (·.number .if) =
    List.range (keywordCount .if d.tokens)
  whiles : (d.occurrences.filter (·.statement.keyword = .while)).map (·.number .while) =
    List.range (keywordCount .while d.tokens)
  located : ∀ o ∈ d.occurrences, o.before ++ o.statement.tokens <+: d.tokens
  /-- The code of every statement stands in the block, with the number of the statement. -/
  code : ∀ o ∈ d.occurrences, o.code env <:+: block

theorem labelled : d.Labelled (d.env className ofClass) (d.code className ofClass) where
  nodup := d.nodup_labels className ofClass
  closed := by
    intro l hl
    have hm := d.mem_labels_of_mem_targets className ofClass hl
    exact List.count_eq_one_of_mem (d.nodup_labels className ofClass) (List.mem_map_of_mem hm)
  defines := by
    intro l hl
    rw [List.mem_map]
    constructor
    · rintro ⟨k, hk, hn⟩
      have hd := (d.mem_labels_iff className ofClass k).mp hk
      rwa [← Label.eq_of_name_eq (hd.ne_named d) hl hn]
    · exact fun h => ⟨l, (d.mem_labels_iff className ofClass l).mpr h, rfl⟩
  exists_defines := by
    intro x hx
    obtain ⟨l, hl, hn⟩ := List.mem_map.mp hx
    exact ⟨l, (d.mem_labels_iff className ofClass l).mp hl, hn⟩
  ifs := d.numbers_occurrences (.inl rfl)
  whiles := d.numbers_occurrences (.inr rfl)
  located := fun o ho => d.prefix_of_mem_occurrences ho
  code := by
    intro o ho
    have hb := d.body.code_infix (d.env className ofClass) d.front 0 0
      (d.keywordCount_front (.inl rfl)) (d.keywordCount_front (.inr rfl)) o ho
    exact hb.trans (List.suffix_append (d.head className ofClass) _).isInfix

end SubroutineDec

end Tree

open Jack.Tree

/-- The code of a class that compiles falls into its subroutines, and the labels of each of them belong
to its conditionals and loops. -/
theorem compile_labelled {source : Source} {u : Compiled} (h : (compile source).outcome = .ok u) :
    (∃ c : ClassDec, c.tokens = source.beforeEnd) ∧
      ∀ c : ClassDec, c.tokens = source.beforeEnd →
        ∃ blocks, Machine.splitBlocks u.instructions = ([], blocks) ∧
          List.Forall₂ (fun d block => d.Labelled (d.env c.name.lexeme c.declarations) block)
            c.subroutines blocks := by
  obtain ⟨c, hc, -⟩ := exists_class_of_ok h
  refine ⟨⟨c, hc⟩, fun c hc => ⟨_, splitBlocks_of_ok h hc, ?_⟩⟩
  rw [List.forall₂_map_right_iff, List.forall₂_same]
  exact fun d _ => d.labelled c.name.lexeme c.declarations

namespace Nested

open Counter (word void name parens braces)

def literal (l : Literal) : Expression := .mk (.literal l (word _)) .nil

/-- if (true) { while (false) { } } else { if (null) { } } -/
def choice : Statement :=
  .ifElse (word _) parens (literal .true) braces
    (.cons (.while (word _) parens (literal .false) braces .nil) .nil) (word _) braces
    (.cons (.ifThen (word _) parens (literal .null) braces .nil) .nil)

/-- function void run() { … } -/
def run : SubroutineDec where
  kind := .function
  word := word _
  type := void
  name := name "run"
  parens := parens
  parameters := .none
  braces := braces
  vars := []
  body := .cons choice .nil

/-- class Nested { function void run() { … } } -/
def tree : ClassDec := ⟨word _, name "Nested", braces, [], [run]⟩

def source : Source := .replay tree.tokens

theorem tokens_tree : tree.tokens = source.beforeEnd := (beforeEnd_of_tokens tree rfl).symm

theorem outcome_source : (compile source).outcome = .ok ⟨"Nested", tree.code, tree.entries⟩ := by
  have h := outcome_of_tokens tree tokens_tree
  rwa [show tree.effect.fault = none by decide] at h

end Nested

example : (Machine.labels Nested.tree.code).map Label.name =
    (["IF_TRUE0", "WHILE_EXP0", "WHILE_END0", "IF_FALSE0", "IF_TRUE1", "IF_FALSE1", "IF_END0"] :
      List Text) := by decide

theorem compile_labelled_nested :
    ∃ u, (compile Nested.source).outcome = .ok u ∧
      ∃ block, Machine.splitBlocks u.instructions = ([], [block]) ∧
        Nested.run.Labelled (Nested.run.env "Nested" []) block := by
  obtain ⟨blocks, hs, hl⟩ :=
    (compile_labelled Nested.outcome_source).2 Nested.tree Nested.tokens_tree
  cases hl with
  | cons hb ht =>
    cases ht
    exact ⟨_, Nested.outcome_source, _, hs, hb⟩

end Jack
