import Jack.Proofs.Accepting.Statement
import Jack.Proofs.Evaluation
import Jack.Proofs.Machine.Control

/-! The conditions of conditionals and loops. The effect of statements does not depend on the numbers of their
labels. A conditional and a loop agree on the words 0 and -1 and on no other, and where they agree, a loop has
the effect of a conditional with its body and itself. -/

namespace Jack

namespace Machine

variable {lib : Library} {block code : List Instruction} {temp : Temp} {s s' t : State}

theorem canRead_of_read {segment : Segment} {index : Int} {w : Word} (h : s.read segment index = some w) :
    s.frame.CanRead (.push segment index) := by
  cases segment with
  | argument | «local» =>
    cases index with
    | ofNat i => exact (List.getElem?_eq_some_iff.mp h).1
    | negSucc i => trivial
  | other name => cases index <;> cases h
  | _ => trivial

theorem length_write {w : Word} {segment : Segment} {index : Int} (h : s.write w segment index = some s') :
    s'.frame.args.length = s.frame.args.length ∧ s'.frame.locals.length = s.frame.locals.length := by
  unfold State.write at h
  split at h
  case h_1 | h_2 =>
    split at h
    · cases h
      simp
    · cases h
  all_goals
    cases h
  all_goals
    exact ⟨rfl, rfl⟩

/-- An instruction of a condition is executed only if the frame has what it reads, and others still find there
what they read. -/
theorem canRead_of_exec {i : Instruction} (hi : Tree.Computing i) (h : exec lib block temp s i = some s') :
    s.frame.CanRead i ∧ s'.rest = s.rest ∧ ∀ j, s'.frame.CanRead j ↔ s.frame.CanRead j := by
  have hcongr : s'.frame.args.length = s.frame.args.length → s'.frame.locals.length = s.frame.locals.length →
      ∀ j, s'.frame.CanRead j ↔ s.frame.CanRead j := by
    intro ha hl j
    unfold Frame.CanRead
    split <;> simp only [ha, hl]
  have hrest : s'.rest = s.rest := by
    rcases (exec_effect h).2 with hr | ⟨l, hl, -⟩
    · exact hr
    · cases i with
      | goto _ | ifGoto _ => cases hi
      | _ => cases hl
  cases i with
  | push segment index =>
    obtain ⟨w, hw, h⟩ := Option.bind_eq_some_iff.mp h
    cases h
    exact ⟨canRead_of_read hw, hrest, fun _ => Iff.rfl⟩
  | pop segment index =>
    unfold exec at h
    cases hs : s.stack with
    | nil => simp [hs] at h
    | cons w stack =>
      simp only [hs] at h
      obtain ⟨ha, hl⟩ := length_write h
      exact ⟨trivial, hrest, hcongr ha hl⟩
  | arithmetic op =>
    obtain ⟨stack, _, h⟩ := Option.bind_eq_some_iff.mp h
    cases h
    exact ⟨trivial, hrest, fun _ => Iff.rfl⟩
  | call callee n =>
    cases n with
    | ofNat n =>
      simp only [exec] at h
      split at h
      · cases h
        exact ⟨trivial, hrest, fun _ => Iff.rfl⟩
      · cases h
    | negSucc n => cases h
  | _ => cases hi

/-- A condition comes to its end only if the frame has all that it reads. -/
theorem Effect.canRead (hc : ∀ i ∈ code, Tree.Computing i) (h : Effect lib code s false t) :
    ∀ i ∈ code, s.frame.CanRead i := by
  have hrun : ∀ {u : State}, Comes lib code (Exit false t) u → (∀ i ∈ u.rest, Tree.Computing i) →
      ∀ i ∈ u.rest, u.frame.CanRead i := by
    intro u hu hc
    induction hu with
    | here hu =>
      rw [hu.1]
      exact nofun
    | @step u u' temp hs _ ih =>
      unfold step at hs
      split at hs
      · cases hs
      · rename_i i rest hr
        rw [hr] at hc ⊢
        obtain ⟨hi, hrest⟩ := List.forall_mem_cons.mp hc
        obtain ⟨hread, hr', hcongr⟩ := canRead_of_exec hi hs
        have hr' : u'.rest = rest := hr'
        rw [hr'] at ih
        refine List.forall_mem_cons.mpr ⟨hread, fun j hj => ?_⟩
        exact (hcongr j).mp (ih hrest j hj)
  exact hrun h hc

end Machine

/-- The label with a number that is greater by `a` or, at a loop, by `b`. -/
def Label.shift (a b : Nat) : Label → Label
  | .ifTrue n => .ifTrue (n + a)
  | .ifFalse n => .ifFalse (n + a)
  | .ifEnd n => .ifEnd (n + a)
  | .whileExp n => .whileExp (n + b)
  | .whileEnd n => .whileEnd (n + b)
  | .named t => .named t

namespace Tree

open Machine (Closed Comes Effect Library Reaches Yields branch loop)

/-- The statements and then another one. -/
@[simp] def Statements.snoc (last : Statement) : Statements → Statements
  | .nil => .cons last .nil
  | .cons first rest => .cons first (rest.snoc last)

section

variable (env : Env) (i w : Nat)

theorem Statements.code_snoc (last : Statement) (sts : Statements) (i w : Nat) :
    (sts.snoc last).code env i w = sts.code env i w ++ last.code env (i + sts.ifs) (w + sts.whiles) := by
  cases sts with
  | nil => simp
  | cons first rest => simp [code_snoc last rest, Nat.add_assoc]

theorem Statements.mentions_snoc (last : Statement) (sts : Statements) :
    (sts.snoc last).mentions = sts.mentions ++ last.mentions := by
  cases sts with
  | nil => simp
  | cons first rest => simp [mentions_snoc last rest]

theorem map_relabel_of_computing {code : List Instruction} (h : ∀ i ∈ code, Computing i) (f : Label → Label) :
    code.map (Instruction.relabel f) = code := by
  refine (List.map_inj_left.mpr fun i hi => ?_).trans (List.map_id code)
  have hc := h i hi
  cases i with
  | label l => cases hc
  | goto l => cases hc
  | ifGoto l => cases hc
  | _ => rfl

@[simp] theorem Expression.map_relabel_code (e : Expression) (f : Label → Label) :
    (e.code env).map (Instruction.relabel f) = e.code env :=
  map_relabel_of_computing (e.computing env) f

@[simp] theorem Call.map_relabel_code (c : Call) (f : Label → Label) :
    (c.code env).map (Instruction.relabel f) = c.code env :=
  map_relabel_of_computing (c.computing env) f

mutual

/-- Greater numbers only change the labels. -/
theorem Statement.code_shift (a b : Nat) : (st : Statement) → (i w : Nat) →
    st.code env (i + a) (w + b) = (st.code env i w).map (Instruction.relabel (Label.shift a b))
  | .letVar .., _, _ => by simp [Env.pop, Instruction.relabel]
  | .letElement .., _, _ => by simp [Env.push, Instruction.relabel]
  | .ifThen _ _ _ _ body, i, w => by
    have hb := body.code_shift a b (i + 1) w
    simp [Instruction.relabel, Label.shift, ← hb, Nat.add_right_comm]
  | .ifElse _ _ _ _ body _ _ elseBody, i, w => by
    have hb := body.code_shift a b (i + 1) w
    have he := elseBody.code_shift a b (i + 1 + body.ifs) (w + body.whiles)
    simp [Instruction.relabel, Label.shift, ← hb, ← he, Nat.add_right_comm]
  | .while _ _ _ _ body, i, w => by
    have hb := body.code_shift a b i (w + 1)
    simp [Instruction.relabel, Label.shift, ← hb, Nat.add_right_comm]
  | .do .., _, _ => by simp [Instruction.relabel]
  | .return .., _, _ => by simp [Instruction.relabel]
  | .returnValue .., _, _ => by simp [Instruction.relabel]

theorem Statements.code_shift (a b : Nat) : (sts : Statements) → (i w : Nat) →
    sts.code env (i + a) (w + b) = (sts.code env i w).map (Instruction.relabel (Label.shift a b))
  | .nil, _, _ => rfl
  | .cons first rest, i, w => by
    have hf := first.code_shift a b i w
    have hr := rest.code_shift a b (i + first.ifs) (w + first.whiles)
    simp [← hf, ← hr, Nat.add_right_comm]

end

theorem Statement.closed (st : Statement) : Closed (st.code env i w) :=
  ⟨st.mem_labels env i w, (st.numbered env i w).nodup_names⟩

theorem Statements.closed (sts : Statements) : Closed (sts.code env i w) :=
  ⟨sts.mem_labels env i w, (sts.numbered env i w).nodup_names⟩

end

section

variable {lib : Library} {env : Env} {s s' : Machine.State} {v : Machine.Word} {r : Bool}

/-- The effect of statements does not depend on the numbers that they are given. -/
theorem Statements.effect_renumber (sts : Statements) (i w : Nat) :
    Effect lib (sts.code env i w) s r s' ↔ Effect lib (sts.code env 0 0) s r s' := by
  have hs : sts.code env i w = (sts.code env 0 0).map (Instruction.relabel (Label.shift i w)) := by
    rw [← sts.code_shift, Nat.zero_add, Nat.zero_add]
  have hn := (sts.closed env i w).nodup
  rw [hs] at hn ⊢
  exact (sts.closed env 0 0).effect_relabel_iff hn

theorem Statement.effect_renumber (st : Statement) (i w : Nat) :
    Effect lib (st.code env i w) s r s' ↔ Effect lib (st.code env 0 0) s r s' := by
  simpa using (Statements.cons st .nil).effect_renumber i w

theorem Statements.effect_snoc_iff (sts : Statements) (last : Statement) (i w : Nat) :
    Effect lib ((sts.snoc last).code env i w) s r s' ↔
      (∃ t, Effect lib (sts.code env 0 0) s false t ∧ Effect lib (last.code env 0 0) t r s') ∨
        r = true ∧ Effect lib (sts.code env 0 0) s true s' := by
  have hn := ((sts.snoc last).closed env i w).nodup
  rw [sts.code_snoc] at hn ⊢
  rw [(sts.closed env _ _).effect_append_iff (last.closed env _ _) hn]
  simp only [sts.effect_renumber, last.effect_renumber]

/-- The value of an expression in a state of the machine, if it has one. -/
def Expression.valueIn (lib : Library) (env : Env) (s : Machine.State) (e : Expression) : Option Machine.Word :=
  (e.eval lib env s.frame.this (s.frame.vars env) s.memory).map Prod.fst

/-- The code of an expression with a value comes to its end, and only with this value on the stack. -/
theorem Expression.yields_of_eval {e : Expression} {m : Machine.Memory}
    (h : e.eval lib env s.frame.this (s.frame.vars env) s.memory = some (v, m)) :
    Yields lib (e.code env) s v ∧ ∃ t, Effect lib (e.code env) s false t := by
  have hr : Reaches lib (e.code env) (fun t => t.rest = [] ∧ t.stack = v :: s.stack)
      (s.onto (e.code env ++ [])) :=
    e.computes (s.frame.holds_vars env) h s.stack _ [] s.that s.temp fun _ _ => .here ⟨rfl, rfl⟩
  rw [List.append_nil] at hr
  constructor
  · intro t ht
    obtain ⟨u, ⟨-, hu⟩, -, rfl⟩ := hr.exists_and (fun _ h => h.1) (fun _ h => h.1) ht
    exact hu
  · have hc := (Machine.comes_exit_iff (G := fun _ => True)).mp (hr.comes.mono fun _ ht => ⟨ht.1, trivial⟩)
    obtain ⟨t, ht, -⟩ := hc
    exact ⟨t, ht⟩

section

variable {e : Expression} (hf : fault env e.mentions = none)

include hf

/-- The code of an accepted expression comes to its end exactly if the expression has a value. -/
theorem Expression.exists_effect_iff :
    (∃ t, Effect lib (e.code env) s false t) ↔ (e.valueIn lib env s).isSome = true := by
  rw [valueIn, Option.isSome_map]
  constructor
  · rintro ⟨t, ht⟩
    obtain ⟨v, m, hv⟩ : ∃ v m, e.eval lib env s.frame.this (s.frame.vars env) s.memory = some (v, m) :=
      e.exists_eval hf (ht.canRead (e.computing env)) s.memory
    rw [hv]
    rfl
  · intro h
    obtain ⟨⟨v, m⟩, hv⟩ := Option.isSome_iff_exists.mp h
    exact (yields_of_eval hv).2

-- Without a value the code does not come to its end, so any word will do.
theorem Expression.yields : Yields lib (e.code env) s ((e.valueIn lib env s).getD 0) := by
  cases hv : e.eval lib env s.frame.this (s.frame.vars env) s.memory with
  | none =>
    intro t ht
    have hx := (exists_effect_iff hf).mp ⟨t, ht⟩
    simp [valueIn, hv] at hx
  | some p =>
    rw [valueIn, hv]
    exact (yields_of_eval hv).1

end

variable {i w : Nat} {ifWord : Word .if} {whileWord : Word .while} {parens : Parens} {cond : Expression}
variable {braces : Braces} {body : Statements}

theorem Statement.code_ifThen : (Statement.ifThen ifWord parens cond braces body).code env i w =
    branch (.ifTrue i) (.ifFalse i) (cond.code env) (body.code env (i + 1) w) := by
  simp [branch]

theorem Statement.code_while : (Statement.while whileWord parens cond braces body).code env i w =
    loop (.whileExp w) (.whileEnd w) (cond.code env) (body.code env i (w + 1)) := by
  simp [loop]

theorem Statement.effect_ifThen_iff (hv : Yields lib (cond.code env) s v) :
    Effect lib ((Statement.ifThen ifWord parens cond braces body).code env i w) s r s' ↔
      ∃ t, Effect lib (cond.code env) s false t ∧
        if v = 0 then r = false ∧ { t with stack := s.stack } = s'
        else Effect lib (body.code env (i + 1) w) { t with stack := s.stack } r s' := by
  have hn := ((Statement.ifThen ifWord parens cond braces body).closed env i w).nodup
  rw [code_ifThen] at hn ⊢
  exact Machine.effect_branch_iff (cond.computing env) (body.closed env _ _) hv hn

theorem Statement.effect_while_iff (hv : Yields lib (cond.code env) s v) :
    Effect lib ((Statement.while whileWord parens cond braces body).code env i w) s r s' ↔
      ∃ t, Effect lib (cond.code env) s false t ∧
        if v = -1 then Effect lib
          ((body.snoc (.while whileWord parens cond braces body)).code env 0 0) { t with stack := s.stack } r s'
        else r = false ∧ { t with stack := s.stack } = s' := by
  have hn := ((Statement.while whileWord parens cond braces body).closed env i w).nodup
  have hl : (Statement.while whileWord parens cond braces body).code env i w = _ := code_while
  rw [hl] at hn ⊢
  rw [Machine.effect_loop_iff (cond.computing env) (body.closed env _ _) hv hn, ← hl]
  simp only [Statements.effect_snoc_iff, Statements.effect_renumber, Statement.effect_renumber]

/-- On a condition that is 0 or -1, a loop has the effect of a conditional with its body and itself. -/
theorem Statement.effect_unroll_iff (hv : Yields lib (cond.code env) s v) (h : v = 0 ∨ v = -1) :
    Effect lib ((Statement.while whileWord parens cond braces body).code env i w) s r s' ↔
      Effect lib ((Statement.ifThen ifWord parens cond braces
        (body.snoc (.while whileWord parens cond braces body))).code env i w) s r s' := by
  rw [effect_while_iff hv, effect_ifThen_iff hv]
  refine exists_congr fun t => and_congr_right fun _ => ?_
  rcases h with rfl | rfl
  · rw [if_pos rfl, if_neg (by decide)]
  · rw [if_pos rfl, if_neg (by decide)]
    exact (Statements.effect_renumber _ _ _).symm

end

end Tree

open Jack.Tree

namespace Pass

/-- In a context, the pass accepts the tokens of a statement and adds `code` to its code. -/
def Emits (c : Context) (st : Statement) (code : List Instruction) : Prop :=
  ∃ n s s' body, s.context = c ∧ statementBy (statements n) n s.peek.terminal = some body ∧
    body s = .ok () s' ∧ s.ahead = st.tokens ++ s'.ahead ∧ s'.code.toList = s.code.toList ++ code

/-- The token that ends a block. -/
def closing : Token := ⟨.punct .rbrace, [], 0⟩

theorem terminal_ne_eof_closing (st : Statement) : ∀ t ∈ st.tokens ++ [closing], t.terminal ≠ .eof := by
  intro t ht
  rcases List.mem_append.mp ht with ht | ht
  · exact st.terminal_ne_eof t ht
  · rw [List.mem_singleton.mp ht]
    exact nofun

/-- Statements of the same tokens have the same code. -/
theorem statement_code_eq_of_tokens_eq {c : Context} {st st' : Statement} (ht : st'.tokens = st.tokens)
    (hf : fault c.env st.mentions = none) :
    fault c.env st'.mentions = none ∧
      st'.code c.env c.nextIf c.nextWhile = st.code c.env c.nextIf c.nextWhile := by
  have hp := statements_runs st.tokens.length
  obtain ⟨p, hsel, hr⟩ : ∃ p, _ ∧ Runs p c [closing] () (st.effect c) :=
    statement_runs hp st (Nat.le_succ _) nofun
  obtain ⟨p', hsel', hr'⟩ : ∃ p, _ ∧ Runs p c [closing] () (st'.effect c) :=
    statement_runs hp st' (by rw [ht]; exact Nat.le_succ _) nofun
  rw [ht, hsel] at hsel'
  cases hsel'
  exact hr.code_eq hr' ht (terminal_ne_eof_closing st) hf

/-- The pass accepts a statement without a fault, and it adds the code of the statement. -/
theorem emits_iff {c : Context} {st : Statement} {code : List Instruction} :
    Emits c st code ↔ fault c.env st.mentions = none ∧ code = st.code c.env c.nextIf c.nextWhile := by
  constructor
  · rintro ⟨n, s, s', p, rfl, hsel, hs, ha, hc⟩
    obtain ⟨_, ⟨st₀, rfl⟩, took⟩ := statementBy_ensures (statements_ensures n) hsel s.context s () s' rfl hs
    have ht : st.tokens = st₀.tokens := List.append_cancel_right (ha.symm.trans took.ahead)
    obtain ⟨hf, hcode⟩ := statement_code_eq_of_tokens_eq ht took.fault
    refine ⟨hf, ?_⟩
    rw [hcode]
    exact List.append_cancel_left (hc.symm.trans took.code)
  · rintro ⟨hf, rfl⟩
    have ha := State.ahead_facing c (terminal_ne_eof_closing st)
    obtain ⟨p, hsel, hr⟩ : ∃ p, _ ∧ Runs p c [closing] () (st.effect c) :=
      statement_runs (statements_runs st.tokens.length) st (Nat.le_succ _) nofun
    rw [← ha, State.next_ahead] at hsel
    have hrun := hr (.facing c (st.tokens ++ [closing])) rfl ha
    simp only [Statement.effect, hf] at hrun
    obtain ⟨s', hs, took⟩ := hrun
    exact ⟨_, _, s', p, rfl, hsel, hs, took.ahead, took.code⟩

end Pass

open Machine (Comes Library)

section

variable (lib : Library) (c : Pass.Context) (body : Statements) (code : List Instruction) (s : Machine.State)

/-- The code emitted for a conditional comes to its body, which stands behind the first label. -/
def EntersIf : Prop :=
  Comes lib code (·.rest = .label (.ifTrue c.nextIf) ::
    (body.code c.env (c.nextIf + 1) c.nextWhile ++ [.label (.ifFalse c.nextIf)])) (s.onto code)

/-- The code emitted for a loop comes to its body. -/
def EntersWhile : Prop :=
  Comes lib code (·.rest = body.code c.env c.nextIf (c.nextWhile + 1) ++
    [.goto (.whileExp c.nextWhile), .label (.whileEnd c.nextWhile)]) (s.onto code)

end

section

variable {lib : Library} {c : Pass.Context} {s : Machine.State}
variable {ifWord : Word .if} {whileWord : Word .while} {parens : Parens} {cond : Expression} {braces : Braces}
variable {body : Statements} {code : List Instruction}

theorem Pass.Emits.fault_condition (h : Pass.Emits c (.ifThen ifWord parens cond braces body) code) :
    fault c.env cond.mentions = none ∧ fault c.env body.mentions = none := by
  rw [← Option.or_eq_none_iff, ← fault_append]
  exact (Pass.emits_iff.mp h).1

theorem entersIf_iff (h : Pass.Emits c (.ifThen ifWord parens cond braces body) code) :
    EntersIf lib c body code s ↔ ∃ v ∈ cond.valueIn lib c.env s, v ≠ 0 := by
  have hf := h.fault_condition.1
  obtain ⟨-, rfl⟩ := Pass.emits_iff.mp h
  have hn := ((Statement.ifThen ifWord parens cond braces body).closed c.env c.nextIf c.nextWhile).nodup
  rw [Statement.code_ifThen] at hn ⊢
  refine (Machine.entersBranch_iff (cond.computing c.env) (Expression.yields hf) hn).trans ?_
  rw [Expression.exists_effect_iff hf]
  cases cond.valueIn lib c.env s <;> simp

theorem entersWhile_iff (hf : fault c.env cond.mentions = none)
    (h : Pass.Emits c (.while whileWord parens cond braces body) code) :
    EntersWhile lib c body code s ↔ cond.valueIn lib c.env s = some (-1) := by
  obtain ⟨-, rfl⟩ := Pass.emits_iff.mp h
  have hn := ((Statement.while whileWord parens cond braces body).closed c.env c.nextIf c.nextWhile).nodup
  rw [Statement.code_while] at hn ⊢
  refine (Machine.entersLoop_iff (cond.computing c.env) (Expression.yields hf) hn).trans ?_
  rw [Expression.exists_effect_iff hf]
  cases cond.valueIn lib c.env s <;> simp

end

/-- Wherever the pass accepts a conditional without alternative, it accepts the loop with the same condition and
body, and the conditional that holds the body and then this loop. In every state of the machine, the conditional
enters its body on every value of the condition but 0, the loop only on -1, so that they agree exactly where
the condition is 0 or -1, or has no value. There the loop has the effect of the conditional that holds it. The
condition has a value wherever the frame has its variables. -/
theorem conditions_agree_iff {c : Pass.Context} {ifWord : Word .if} {parens : Parens} {cond : Expression}
    {braces : Braces} {body : Statements} {ifCode : List Instruction}
    (h : Pass.Emits c (.ifThen ifWord parens cond braces body) ifCode) (whileWord : Word .while) :
    ∃ whileCode unrolledCode,
      Pass.Emits c (.while whileWord parens cond braces body) whileCode ∧
      Pass.Emits c (.ifThen ifWord parens cond braces (body.snoc (.while whileWord parens cond braces body)))
        unrolledCode ∧
      ∀ (lib : Library) (s : Machine.State),
        (EntersIf lib c body ifCode s ↔ ∃ v ∈ cond.valueIn lib c.env s, v ≠ 0) ∧
        (EntersWhile lib c body whileCode s ↔ cond.valueIn lib c.env s = some (-1)) ∧
        ((EntersIf lib c body ifCode s ↔ EntersWhile lib c body whileCode s) ↔
          ∀ v ∈ cond.valueIn lib c.env s, v = 0 ∨ v = -1) ∧
        ((∀ v ∈ cond.valueIn lib c.env s, v = 0 ∨ v = -1) → ∀ returned s',
          Machine.Effect lib whileCode s returned s' ↔ Machine.Effect lib unrolledCode s returned s') ∧
        (s.frame.HasPlaces c.env cond.tokens → (cond.valueIn lib c.env s).isSome = true) := by
  obtain ⟨hcond, hbody⟩ := h.fault_condition
  have hw : Pass.Emits c (.while whileWord parens cond braces body) _ :=
    Pass.emits_iff.mpr ⟨by simp [hcond, hbody], rfl⟩
  have hu : Pass.Emits c
      (.ifThen ifWord parens cond braces (body.snoc (.while whileWord parens cond braces body))) _ :=
    Pass.emits_iff.mpr ⟨by simp [Statements.mentions_snoc, hcond, hbody], rfl⟩
  refine ⟨_, _, hw, hu, fun lib s => ?_⟩
  have hi : EntersIf lib c body ifCode s ↔ _ := entersIf_iff h
  have hl : EntersWhile lib c body _ s ↔ _ := entersWhile_iff hcond hw
  refine ⟨hi, hl, ?_, fun h01 returned s' => ?_, fun hp => ?_⟩
  · rw [hi, hl]
    cases cond.valueIn lib c.env s with
    | none => simp
    | some v => simpa using Machine.ne_zero_iff_eq_neg_one_iff v
  · refine Statement.effect_unroll_iff (Expression.yields hcond) ?_
    cases hv : cond.valueIn lib c.env s with
    | none => exact .inl rfl
    | some v => exact h01 v hv
  · obtain ⟨v, m, hv⟩ : ∃ v m, cond.eval lib c.env s.frame.this (s.frame.vars c.env) s.memory = some (v, m) :=
      cond.exists_eval hcond (cond.canRead hcond hp) s.memory
    rw [Expression.valueIn, hv]
    rfl

namespace Counter

/-- k > 0 -/
def positive : Expression := binary (var "k") .gt (number "0")

/-- let k = k - 1; -/
def decrement : Statements := .cons (assign "k" (binary (var "k") .sub (number "1"))) .nil

/-- 1 -/
def one : Expression := .mk (number "1") .nil

end Counter

open Counter in
/-- Where k is 7, both enter their bodies. -/
theorem conditions_agree_iff_positive :
    ∃ ifCode whileCode unrolledCode,
      Pass.Emits inside (.ifThen (word _) parens positive braces decrement) ifCode ∧
      Pass.Emits inside (.while (word _) parens positive braces decrement) whileCode ∧
      Pass.Emits inside (.ifThen (word _) parens positive braces
        (decrement.snoc (.while (word _) parens positive braces decrement))) unrolledCode ∧
      ∀ (lib : Library) (s : Machine.State), s.frame = seven →
        EntersIf lib inside decrement ifCode s ∧ EntersWhile lib inside decrement whileCode s ∧
          ∀ returned s',
            Machine.Effect lib whileCode s returned s' ↔ Machine.Effect lib unrolledCode s returned s' := by
  have hi : Pass.Emits inside (.ifThen (word _) parens positive braces decrement) _ :=
    Pass.emits_iff.mpr ⟨by decide, rfl⟩
  obtain ⟨whileCode, unrolledCode, hw, hu, h⟩ := conditions_agree_iff hi (word _)
  refine ⟨_, whileCode, unrolledCode, hi, hw, hu, fun lib s hs => ?_⟩
  have hv : positive.valueIn lib inside.env s = some (-1) := by
    unfold Expression.valueIn
    rw [hs]
    rfl
  obtain ⟨hif, hwhile, -, heffect, -⟩ := h lib s
  rw [hv] at hif hwhile heffect
  exact ⟨hif.mpr ⟨-1, rfl, by decide⟩, hwhile.mpr rfl, heffect fun v hv => .inr (Option.some.inj hv).symm⟩

open Counter in
/-- On the condition 1, the conditional enters its body and the loop does not. -/
theorem conditions_disagree_one :
    ∃ ifCode whileCode,
      Pass.Emits inside (.ifThen (word _) parens one braces decrement) ifCode ∧
      Pass.Emits inside (.while (word _) parens one braces decrement) whileCode ∧
      ∀ (lib : Library) (s : Machine.State),
        EntersIf lib inside decrement ifCode s ∧ ¬ EntersWhile lib inside decrement whileCode s := by
  have hi : Pass.Emits inside (.ifThen (word _) parens one braces decrement) _ :=
    Pass.emits_iff.mpr ⟨by decide, rfl⟩
  have hw : Pass.Emits inside (.while (word _) parens one braces decrement) _ :=
    Pass.emits_iff.mpr ⟨by decide, rfl⟩
  refine ⟨_, _, hi, hw, fun lib s => ?_⟩
  have hv : one.valueIn lib inside.env s = some 1 := rfl
  constructor
  · exact (entersIf_iff hi).mpr ⟨1, hv, by decide⟩
  · rw [entersWhile_iff (by decide) hw, hv]
    decide

end Jack
