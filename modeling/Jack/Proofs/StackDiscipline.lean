import Jack.Proofs.Blocks
import Jack.Proofs.Machine.Depth
import Jack.Proofs.SinglePass

/-! The stack of a subroutine has one depth at each of its instructions. Expressions add one word to it,
and statements start and end without any. -/

namespace Jack

namespace Tree

open Machine (Fits Balanced Placement label? labels target? targets)

section

variable (env : Env) {d : Nat}

theorem Unary.fits (op : Unary) : Fits op.code (d + 1) (d + 1) := by
  cases op <;> exact .arithmetic

theorem Operator.fits (op : Operator) : Fits op.code (d + 2) (d + 1) := by
  cases op with
  | mul | div => exact .call
  | _ => exact .arithmetic

theorem balanced_stringCode (lexeme : Text) : Balanced (stringCode lexeme) d (d + 1) := by
  refine .cons .push (.cons .call ?_)
  induction Utf8.codePoints lexeme with
  | nil => exact .nil
  | cons c cs ih => exact .cons .push (.cons .call ih)

theorem methodCall_balanced {receiver : Segment} {index : Int} {callee : Text}
    {code : List Instruction} {n : Nat} (h : Balanced code (d + 1) (d + 1 + n)) :
    Balanced (.push receiver index :: code ++ [.call callee (1 + n : Nat)]) d (d + 1) := by
  rw [Nat.add_assoc] at h
  exact .cons .push (h.append (.cons .call .nil))

mutual

theorem Term.balanced : (t : Term) → (d : Nat) → Balanced (t.code env) d (d + 1)
  | .number _, _ => .cons .push .nil
  | .string constant, _ => balanced_stringCode constant.lexeme
  | .literal .true _, _ => .cons .push (.cons .arithmetic .nil)
  | .literal .false _, _ | .literal .null _, _ | .literal .this _, _ => .cons .push .nil
  | .var _, _ => .cons .push .nil
  | .element _ _ index, d =>
    (index.balanced d).append (.cons .push (.cons .arithmetic (.cons .pop (.cons .push .nil))))
  | .call c, d => c.balanced d
  | .paren _ e, d => e.balanced d
  | .unary op _ t, d => (t.balanced d).append (.cons op.fits .nil)

theorem Expression.balanced : (e : Expression) → (d : Nat) → Balanced (e.code env) d (d + 1)
  | .mk first rest, d => (first.balanced d).append (rest.balanced d)

theorem Operations.balanced : (o : Operations) → (d : Nat) → Balanced (o.code env) (d + 1) (d + 1)
  | .nil, _ => .nil
  | .cons op _ t rest, d => (t.balanced (d + 1)).append (.cons op.fits (rest.balanced d))

/-- The object of a call counts as one of its arguments. -/
theorem Call.balanced : (c : Call) → (d : Nat) → Balanced (c.code env) d (d + 1)
  | .own .., d => methodCall_balanced (Arguments.balanced _ (d + 1))
  | .qualified x _ _ _ args, d => by
    rw [Call.code]
    split
    · exact methodCall_balanced (args.balanced (d + 1))
    · exact (args.balanced d).append (.cons .call .nil)

theorem Arguments.balanced : (a : Arguments) → (d : Nat) → Balanced (a.code env) d (d + a.count)
  | .none, _ => .nil
  | .some first rest, d => by
    have hr := rest.balanced (d + 1)
    rw [Nat.add_right_comm] at hr
    exact (first.balanced d).append hr

theorem MoreArguments.balanced : (a : MoreArguments) → (d : Nat) →
    Balanced (a.code env) d (d + a.count)
  | .nil, _ => .nil
  | .cons _ e rest, d => by
    have hr := rest.balanced (d + 1)
    rw [Nat.add_right_comm] at hr
    exact (e.balanced d).append hr

end

mutual

theorem Statement.balanced : (st : Statement) → (i w : Nat) → Balanced (st.code env i w) 0 0
  | .letVar _ _ _ value _, _, _ => (value.balanced env 0).append (.cons .pop .nil)
  -- The address waits below the value, which moves through the temporary segment.
  | .letElement _ _ _ index _ value _, _, _ =>
    ((index.balanced env 0).append (.cons .push (.cons .arithmetic (value.balanced env 1)))).append
      (.cons .pop (.cons .pop (.cons .push (.cons .pop .nil))))
  | .ifThen _ _ cond _ body, i, w =>
    ((cond.balanced env 0).append
      (.cons .ifGoto (.cons .goto (.cons .label (body.balanced (i + 1) w))))).append
      (.cons .label .nil)
  | .ifElse _ _ cond _ body _ _ elseBody, i, w =>
    (((cond.balanced env 0).append
      (.cons .ifGoto (.cons .goto (.cons .label (body.balanced (i + 1) w))))).append
      (.cons .goto (.cons .label
        (elseBody.balanced (i + 1 + body.ifs) (w + body.whiles))))).append
      (.cons .label .nil)
  | .while _ _ cond _ body, i, w =>
    ((Balanced.cons .label (cond.balanced env 0)).append
      (.cons .arithmetic (.cons .ifGoto (body.balanced i (w + 1))))).append
      (.cons .goto (.cons .label .nil))
  | .do _ c _, _, _ => (c.balanced env 0).append (.cons .pop .nil)
  | .return .., _, _ => .cons .push (.cons .ret .nil)
  | .returnValue _ value _, _, _ => (value.balanced env 0).append (.cons .ret .nil)

theorem Statements.balanced : (sts : Statements) → (i w : Nat) → Balanced (sts.code env i w) 0 0
  | .nil, _, _ => .nil
  | .cons first rest, i, w =>
    (first.balanced i w).append (rest.balanced (i + first.ifs) (w + first.whiles))

end

theorem targets_of_computing {code : List Instruction} (h : ∀ i ∈ code, Computing i) :
    targets code = [] := by
  refine List.filterMap_eq_nil_iff.mpr fun i hi => ?_
  have := h i hi
  cases i <;> simp_all [target?, Computing]

@[simp] theorem Expression.targets_code (e : Expression) : targets (e.code env) = [] :=
  targets_of_computing (e.computing env)

@[simp] theorem Call.targets_code (c : Call) : targets (c.code env) = [] :=
  targets_of_computing (c.computing env)

mutual

/-- The jumps of a statement stay in it. -/
theorem Statement.mem_labels : (st : Statement) → (i w : Nat) →
    ∀ l ∈ targets (st.code env i w), l ∈ labels (st.code env i w)
  | .letVar .., _, _ => by simp [Env.pop, target?]
  | .letElement .., _, _ => by simp [Env.push, target?]
  | .ifThen _ _ _ _ body, i, w => by
    have hb := body.mem_labels (i + 1) w
    simpa [target?, label?, or_imp, forall_and] using fun l hl => .inr (.inl (hb l hl))
  | .ifElse _ _ _ _ body _ _ elseBody, i, w => by
    have hb := body.mem_labels (i + 1) w
    have he := elseBody.mem_labels (i + 1 + body.ifs) (w + body.whiles)
    simpa [target?, label?, or_imp, forall_and] using
      ⟨fun l hl => .inr (.inl (hb l hl)), fun l hl => .inr (.inr (.inr (.inl (he l hl))))⟩
  | .while _ _ _ _ body, i, w => by
    have hb := body.mem_labels i (w + 1)
    simpa [target?, label?, or_imp, forall_and] using fun l hl => .inr (.inl (hb l hl))
  | .do .., _, _ => by simp [target?]
  | .return .., _, _ => by simp [target?]
  | .returnValue .., _, _ => by simp [target?]

theorem Statements.mem_labels : (sts : Statements) → (i w : Nat) →
    ∀ l ∈ targets (sts.code env i w), l ∈ labels (sts.code env i w)
  | .nil, _, _ => by simp
  | .cons first rest, i, w => by
    have hf := first.mem_labels i w
    have hr := rest.mem_labels (i + first.ifs) (w + first.whiles)
    simpa [or_imp, forall_and] using ⟨fun l hl => .inl (hf l hl), fun l hl => .inr (hr l hl)⟩

end

mutual

/-- Where the statements inside a statement stand, if its own code starts at `p`. -/
def Statement.inner (i w p : Nat) : Statement → List Placement
  | .ifThen _ _ cond _ body => body.placements (i + 1) w (p + (cond.code env).length + 3)
  | .ifElse _ _ cond _ body _ _ elseBody =>
    let start := p + (cond.code env).length + 3
    body.placements (i + 1) w start ++
      elseBody.placements (i + 1 + body.ifs) (w + body.whiles)
        (start + (body.code env (i + 1) w).length + 2)
  | .while _ _ cond _ body => body.placements i (w + 1) (p + 1 + (cond.code env).length + 2)
  | .letVar .. | .letElement .. | .do .. | .return .. | .returnValue .. => []

/-- Where statements and those inside them stand, if the code starts at `p`. -/
def Statements.placements (i w p : Nat) : Statements → List Placement
  | .nil => []
  | .cons first rest =>
    ⟨p, first.code env i w⟩ :: first.inner i w p ++
      rest.placements (i + first.ifs) (w + first.whiles) (p + (first.code env i w).length)

end

/-- Behind the jumps of a conditional nothing is left of its condition. -/
theorem balanced_branch {pre : List Instruction} (hp : Balanced pre 0 0) (cond : Expression)
    (t f : Label) : Balanced (pre ++ cond.code env ++ [.ifGoto t, .goto f, .label t]) 0 0 :=
  (hp.append (cond.balanced env 0)).append (.cons .ifGoto (.cons .goto (.cons .label .nil)))

section

variable {block : List Instruction}

mutual

theorem Statement.level_of_mem_inner : (st : Statement) → (i w : Nat) → (pre post : List Instruction) →
    block = pre ++ st.code env i w ++ post → Balanced pre 0 0 →
    ∀ s ∈ st.inner env i w pre.length, s.Level block
  | .ifThen _ _ cond _ body, i, w, pre, post, h, hp => by
    let start := pre ++ cond.code env ++ [.ifGoto (.ifTrue i), .goto (.ifFalse i), .label (.ifTrue i)]
    have hl : start.length = pre.length + (cond.code env).length + 3 := by
      simp only [start, List.length_append, List.length_cons, List.length_nil]
    have hs : Balanced start 0 0 := balanced_branch env hp cond _ _
    rw [Statement.inner, ← hl]
    exact body.level_of_mem_placements (i + 1) w start (.label (.ifFalse i) :: post)
      (by simpa [start] using h) hs
  | .ifElse _ _ cond _ body _ _ elseBody, i, w, pre, post, h, hp => by
    let start := pre ++ cond.code env ++ [.ifGoto (.ifTrue i), .goto (.ifFalse i), .label (.ifTrue i)]
    let otherwise := start ++ body.code env (i + 1) w ++ [.goto (.ifEnd i), .label (.ifFalse i)]
    have hl : start.length = pre.length + (cond.code env).length + 3 := by
      simp only [start, List.length_append, List.length_cons, List.length_nil]
    have ho : otherwise.length = start.length + (body.code env (i + 1) w).length + 2 := by
      simp only [otherwise, List.length_append, List.length_cons, List.length_nil]
    have hs : Balanced start 0 0 := balanced_branch env hp cond _ _
    have hs' : Balanced otherwise 0 0 :=
      (hs.append (body.balanced env (i + 1) w)).append (.cons .goto (.cons .label .nil))
    intro s hm
    simp only [Statement.inner, ← hl, ← ho, List.mem_append] at hm
    obtain hm | hm := hm
    · exact body.level_of_mem_placements (i + 1) w start
        (.goto (.ifEnd i) :: .label (.ifFalse i) ::
          elseBody.code env (i + 1 + body.ifs) (w + body.whiles) ++ .label (.ifEnd i) :: post)
        (by simpa [start] using h) hs s hm
    · exact elseBody.level_of_mem_placements (i + 1 + body.ifs) (w + body.whiles) otherwise
        (.label (.ifEnd i) :: post) (by simpa [start, otherwise] using h) hs' s hm
  | .while _ _ cond _ body, i, w, pre, post, h, hp => by
    let start := pre ++ .label (.whileExp w) :: cond.code env ++
      [.arithmetic .not, .ifGoto (.whileEnd w)]
    have hl : start.length = pre.length + 1 + (cond.code env).length + 2 := by
      simp only [start, List.length_append, List.length_cons, List.length_nil]
      omega
    have hs : Balanced start 0 0 :=
      (hp.append (.cons .label (cond.balanced env 0))).append (.cons .arithmetic (.cons .ifGoto .nil))
    rw [Statement.inner, ← hl]
    exact body.level_of_mem_placements i (w + 1) start
      (.goto (.whileExp w) :: .label (.whileEnd w) :: post) (by simpa [start] using h) hs
  | .letVar .., _, _, _, _, _, _ => by simp [Statement.inner]
  | .letElement .., _, _, _, _, _, _ => by simp [Statement.inner]
  | .do .., _, _, _, _, _, _ => by simp [Statement.inner]
  | .return .., _, _, _, _, _, _ => by simp [Statement.inner]
  | .returnValue .., _, _, _, _, _, _ => by simp [Statement.inner]

/-- Statements stand where nothing is on the stack. -/
theorem Statements.level_of_mem_placements : (sts : Statements) → (i w : Nat) →
    (pre post : List Instruction) → block = pre ++ sts.code env i w ++ post → Balanced pre 0 0 →
    ∀ s ∈ sts.placements env i w pre.length, s.Level block
  | .nil, _, _, _, _, _, _ => by simp [Statements.placements]
  | .cons first rest, i, w, pre, post, h, hp => by
    have hb := first.balanced env i w
    have hf : block = pre ++ first.code env i w ++
        (rest.code env (i + first.ifs) (w + first.whiles) ++ post) := by
      simpa using h
    intro s hs
    simp only [Statements.placements, List.cons_append, List.mem_cons, List.mem_append] at hs
    obtain rfl | hs | hs := hs
    · exact ⟨pre, _, hf, rfl, hp, hb⟩
    · exact first.level_of_mem_inner i w pre _ hf hp s hs
    · rw [← List.length_append] at hs
      exact rest.level_of_mem_placements _ _ (pre ++ first.code env i w) post (by simpa using h)
        (hp.append hb) s hs

end

end

end

namespace SubroutineDec

variable (d : SubroutineDec) (className : Text) (ofClass : List Declaration)

/-- What stands in front of the statements. -/
def head : List Instruction :=
  .function (className ++ "." ++ d.name.lexeme) d.locals ::
    d.kind.prologue (ofClass.countP (·.storage = .field))

def placements : List Placement :=
  d.body.placements (d.env className ofClass) 0 0 (d.head className ofClass).length

theorem balanced_head : Balanced (d.head className ofClass) 0 0 := by
  unfold head
  cases d.kind with
  | constructor => exact .cons .function (.cons .push (.cons .call (.cons .pop .nil)))
  | function => exact .cons .function .nil
  | method => exact .cons .function (.cons .push (.cons .pop .nil))

theorem targets_head : targets (d.head className ofClass) = [] := by
  unfold head
  cases d.kind <;> rfl

theorem stackDiscipline : Machine.StackDiscipline (d.code className ofClass)
    (d.placements className ofClass) fun p => Machine.depth ((d.code className ofClass).take p) := by
  have hh := d.balanced_head className ofClass
  refine (hh.append (d.body.balanced _ 0 0)).stackDiscipline ?_ (d.nodup_labels className ofClass) ?_
  · rw [Machine.targets_append, Machine.labels_append, targets_head, List.nil_append]
    exact fun l hl => List.mem_append_right _ (d.body.mem_labels _ 0 0 l hl)
  · exact d.body.level_of_mem_placements _ 0 0 (d.head className ofClass) [] (by simp) hh

end SubroutineDec

end Tree

open Jack.Tree

/-- The code of a class that compiles falls into its subroutines, and each of them keeps the discipline
of the stack. -/
theorem compile_stackDiscipline {source : Source} {u : Compiled}
    (h : (compile source).outcome = .ok u) :
    (∃ c : ClassDec, c.tokens = source.beforeEnd) ∧
      ∀ c : ClassDec, c.tokens = source.beforeEnd →
        Machine.splitBlocks u.instructions =
            ([], c.subroutines.map (·.code c.name.lexeme c.declarations)) ∧
          ∀ d ∈ c.subroutines, ∃ depth : Nat → Nat,
            Machine.StackDiscipline (d.code c.name.lexeme c.declarations)
              (d.placements c.name.lexeme c.declarations) depth := by
  obtain ⟨c, hc, -⟩ := exists_class_of_ok h
  refine ⟨⟨c, hc⟩, fun c hc => ⟨splitBlocks_of_ok h hc, fun d _ => ?_⟩⟩
  exact ⟨_, d.stackDiscipline c.name.lexeme c.declarations⟩

theorem compile_stackDiscipline_counter :
    ∃ u, (compile Counter.source).outcome = .ok u ∧ ∃ depth : Nat → Nat,
      Machine.StackDiscipline (Counter.add.code "Counter" Counter.tree.declarations)
        (Counter.add.placements "Counter" Counter.tree.declarations) depth := by
  have hd : Counter.add ∈ Counter.tree.subroutines := .head _
  have h := (compile_stackDiscipline Counter.outcome_source).2 Counter.tree Counter.tokens_tree
  exact ⟨_, Counter.outcome_source, h.2 Counter.add hd⟩

end Jack
