import Jack.Proofs.Accepting.Expression
import Jack.Proofs.Preservation
import Jack.Proofs.Reading.Expression
import Jack.Proofs.Simulation.Expression

/-! An expression that the pass accepts has a value, and the code that it emits evaluates it and does nothing
else: it makes the calls of the expression in order, which alone change the memory and the temporary segment,
and leaves the value on what was on the stack. -/

namespace Jack

namespace Machine.Frame

/-- The values of the parameters and locals of a frame. -/
def vars (env : Tree.Env) (fr : Frame) : Tree.Vars := fun x =>
  (env.find? x).bind fun v => (fr.slots v.storage)[v.index]?

theorem holds_vars (env : Tree.Env) (fr : Frame) : fr.Holds env (fr.vars env) := by
  intro x v hx _
  simp [vars, hx]

/-- The machine has a word for a variable. -/
def HasPlace (fr : Frame) (v : Variable) : Prop :=
  v.storage.ofClass = true ∨ v.index < (fr.slots v.storage).length

instance (fr : Frame) (v : Variable) : Decidable (fr.HasPlace v) := inferInstanceAs (Decidable (_ ∨ _))

/-- It has one for every variable that the tokens name. -/
def HasPlaces (env : Tree.Env) (fr : Frame) (tokens : List Token) : Prop :=
  ∀ t ∈ tokens, ∀ v ∈ env.find? t.lexeme, fr.HasPlace v

instance (env : Tree.Env) (fr : Frame) (tokens : List Token) : Decidable (fr.HasPlaces env tokens) :=
  inferInstanceAs (Decidable (∀ t ∈ tokens, ∀ v ∈ env.find? t.lexeme, fr.HasPlace v))

namespace HasPlaces

variable {env : Tree.Env} {fr : Frame} {t : Token} {tokens more : List Token}

theorem of_cons (h : fr.HasPlaces env (t :: tokens)) : fr.HasPlaces env tokens :=
  fun u hu => h u (List.mem_cons_of_mem _ hu)

theorem of_append (h : fr.HasPlaces env (tokens ++ more)) : fr.HasPlaces env tokens ∧ fr.HasPlaces env more :=
  ⟨fun u hu => h u (List.mem_append_left _ hu), fun u hu => h u (List.mem_append_right _ hu)⟩

theorem of_pair {p q : Punct} {pair : Tree.Pair p q} (h : fr.HasPlaces env (pair.tokens tokens)) :
    fr.HasPlaces env tokens :=
  h.of_cons.of_append.1

end HasPlaces

/-- The frame has a word where the instruction reads one of its parameters or locals. -/
def CanRead (fr : Frame) : Instruction → Prop
  | .push .argument (.ofNat i) => i < fr.args.length
  | .push .local (.ofNat i) => i < fr.locals.length
  | .push (.other _) _ => False
  | _ => True

theorem canRead_push_iff {fr : Frame} {v : Variable} :
    fr.CanRead (.push v.storage.segment v.index) ↔ fr.HasPlace v := by
  unfold HasPlace
  cases v.storage with
  | static | field => exact ⟨fun _ => .inl rfl, fun _ => trivial⟩
  | argument | var => exact ⟨.inr, fun h => h.resolve_left nofun⟩
  | other name => exact ⟨False.elim, fun h => absurd (h.resolve_left nofun) (Nat.not_lt_zero _)⟩

end Machine.Frame

namespace Tree

open Machine (Frame Library Memory Performs)

variable {lib : Library} {fr : Frame} {env : Env}

theorem Env.exists_read_of_place {x : Text} {v : Variable} (hx : env.find? x = some v) (hp : fr.HasPlace v)
    (m : Memory) : ∃ w, env.read fr.this (fr.vars env) m x = some w := by
  unfold Env.read Frame.vars
  unfold Frame.HasPlace at hp
  simp only [hx, Option.bind_eq_bind, Option.bind_some]
  cases hs : v.storage with
  | static => exact ⟨_, rfl⟩
  | field => exact ⟨_, rfl⟩
  | argument | var =>
    simp only [hs, Storage.ofClass, Bool.false_eq_true, false_or] at hp
    exact ⟨_, List.getElem?_eq_getElem hp⟩
  | other name => simp [hs, Storage.ofClass, Frame.slots] at hp

theorem Env.push_of_find? {x : Text} {v : Variable} (hx : env.find? x = some v) :
    env.push x = .push v.storage.segment v.index := by
  simp [Env.push, Env.get, hx]

theorem Mention.exists_find? {x : Token} (hf : Mention.fault env (.use x) = none) :
    ∃ v, env.find? x.lexeme = some v := by
  cases hx : env.find? x.lexeme with
  | none => simp [Mention.fault, hx] at hf
  | some v => exact ⟨v, rfl⟩

/-- A name that is used as a variable can be read where its code can. -/
theorem Env.exists_read {x : Token} (hf : Mention.fault env (.use x) = none)
    (hr : fr.CanRead (env.push x.lexeme)) (m : Memory) :
    ∃ w, env.read fr.this (fr.vars env) m x.lexeme = some w := by
  obtain ⟨v, hx⟩ := Mention.exists_find? hf
  rw [Env.push_of_find? hx, Frame.canRead_push_iff] at hr
  exact Env.exists_read_of_place hx hr m

/-! Where the frame has what the code of a tree reads, the tree has a value. -/

mutual

theorem Term.exists_eval : (t : Term) → fault env t.mentions = none → (∀ i ∈ t.code env, fr.CanRead i) →
    (m : Memory) → ∃ w m', t.eval lib env fr.this (fr.vars env) m = some (w, m')
  | .number constant, hf, _, m => by
    cases hw : constant.token.word? with
    | none => simp [Mention.fault, hw] at hf
    | some n => exact ⟨BitVec.ofNat 16 n, m, by simp [Term.eval, hw]⟩
  | .string _, _, _, _ => ⟨_, _, rfl⟩
  | .literal _ _, _, _, _ => ⟨_, _, rfl⟩
  | .var x, hf, hr, m => by
    have hf : Mention.fault env (.use x.token) = none := by
      simpa using hf
    obtain ⟨w, hw⟩ := Env.exists_read hf (hr _ List.mem_cons_self) m
    exact ⟨w, m, by simp [Term.eval, hw]⟩
  | .element x _ index, hf, hr, m => by
    rw [Term.mentions, fault_cons, Option.or_eq_none_iff] at hf
    obtain ⟨hi, hx⟩ := List.forall_mem_append.mp hr
    obtain ⟨i, m₁, hi⟩ := index.exists_eval hf.2 hi m
    obtain ⟨base, hb⟩ := Env.exists_read hf.1 (hx _ List.mem_cons_self) m₁
    exact ⟨m₁.heap (base + i), m₁, by simp [Term.eval, hi, hb]⟩
  | .call c, hf, hr, m => c.exists_eval hf hr m
  | .paren _ e, hf, hr, m => e.exists_eval hf hr m
  | .unary op _ t, hf, hr, m => by
    obtain ⟨w, m₁, hw⟩ := t.exists_eval hf (List.forall_mem_append.mp hr).1 m
    exact ⟨op.apply w, m₁, by simp [Term.eval, hw]⟩

theorem Expression.exists_eval : (e : Expression) → fault env e.mentions = none →
    (∀ i ∈ e.code env, fr.CanRead i) →
    (m : Memory) → ∃ w m', e.eval lib env fr.this (fr.vars env) m = some (w, m')
  | .mk first rest, hf, hr, m => by
    rw [Expression.mentions, fault_append, Option.or_eq_none_iff] at hf
    obtain ⟨hfirst, hrest⟩ := List.forall_mem_append.mp hr
    obtain ⟨v, m₁, hv⟩ := first.exists_eval hf.1 hfirst m
    obtain ⟨w, m₂, hw⟩ := rest.exists_eval hf.2 hrest v m₁
    exact ⟨w, m₂, by simp [Expression.eval, hv, hw]⟩

theorem Operations.exists_eval : (o : Operations) → fault env o.mentions = none →
    (∀ i ∈ o.code env, fr.CanRead i) →
    (w : Machine.Word) → (m : Memory) → ∃ w' m', o.eval lib env fr.this (fr.vars env) w m = some (w', m')
  | .nil, _, _, w, m => ⟨w, m, rfl⟩
  | .cons op _ t rest, hf, hr, w, m => by
    rw [Operations.mentions, fault_append, Option.or_eq_none_iff] at hf
    obtain ⟨ht, hrest⟩ := List.forall_mem_append.mp hr
    obtain ⟨v, m₁, hv⟩ := t.exists_eval hf.1 ht m
    obtain ⟨w', m₂, hw⟩ := rest.exists_eval hf.2 (List.forall_mem_cons.mp hrest).2 (op.apply lib w v m₁).1
      (op.apply lib w v m₁).2
    exact ⟨w', m₂, by simp [Operations.eval, hv, hw]⟩

theorem Call.exists_eval : (c : Call) → fault env c.mentions = none → (∀ i ∈ c.code env, fr.CanRead i) →
    (m : Memory) → ∃ w m', c.eval lib env fr.this (fr.vars env) m = some (w, m')
  | .own f _ args, hf, hr, m => by
    have ha := (List.forall_mem_cons.mp (List.forall_mem_append.mp hr).1).2
    obtain ⟨ws, m₁, hw⟩ := args.exists_eval hf ha m
    exact ⟨_, _, by simp only [Call.eval, hw, Option.bind_eq_bind, Option.bind_some]; rfl⟩
  | .qualified x _ f _ args, hf, hr, m => by
    cases hx : env.find? x.lexeme with
    | none =>
      simp only [Call.code, hx] at hr
      obtain ⟨ws, m₁, hw⟩ := args.exists_eval hf (List.forall_mem_append.mp hr).1 m
      exact ⟨_, _, by simp only [Call.eval, hx, hw, Option.bind_eq_bind, Option.bind_some]; rfl⟩
    | some v =>
      simp only [Call.code, hx] at hr
      obtain ⟨hv, ha⟩ := List.forall_mem_cons.mp (List.forall_mem_append.mp hr).1
      obtain ⟨ws, m₁, hw⟩ := args.exists_eval hf ha m
      obtain ⟨receiver, hr⟩ := Env.exists_read_of_place hx (Frame.canRead_push_iff.mp hv) m
      exact ⟨_, _, by simp only [Call.eval, hx, hr, hw, Option.bind_eq_bind, Option.bind_some]; rfl⟩

theorem Arguments.exists_eval : (a : Arguments) → fault env a.mentions = none →
    (∀ i ∈ a.code env, fr.CanRead i) →
    (m : Memory) → ∃ ws m', a.eval lib env fr.this (fr.vars env) m = some (ws, m')
  | .none, _, _, m => ⟨[], m, rfl⟩
  | .some first rest, hf, hr, m => by
    rw [Arguments.mentions, fault_append, Option.or_eq_none_iff] at hf
    obtain ⟨hfirst, hrest⟩ := List.forall_mem_append.mp hr
    obtain ⟨w, m₁, hw⟩ := first.exists_eval hf.1 hfirst m
    obtain ⟨ws, m₂, hws⟩ := rest.exists_eval hf.2 hrest m₁
    exact ⟨w :: ws, m₂, by simp [Arguments.eval, hw, hws]⟩

theorem MoreArguments.exists_eval : (a : MoreArguments) → fault env a.mentions = none →
    (∀ i ∈ a.code env, fr.CanRead i) →
    (m : Memory) → ∃ ws m', a.eval lib env fr.this (fr.vars env) m = some (ws, m')
  | .nil, _, _, m => ⟨[], m, rfl⟩
  | .cons _ e rest, hf, hr, m => by
    rw [MoreArguments.mentions, fault_append, Option.or_eq_none_iff] at hf
    obtain ⟨he, hrest⟩ := List.forall_mem_append.mp hr
    obtain ⟨w, m₁, hw⟩ := e.exists_eval hf.1 he m
    obtain ⟨ws, m₂, hws⟩ := rest.exists_eval hf.2 hrest m₁
    exact ⟨w :: ws, m₂, by simp [MoreArguments.eval, hw, hws]⟩

end

/-! A frame with the variables of a tree has what its code reads. -/

theorem canRead_stringCode (lexeme : Text) : ∀ i ∈ stringCode lexeme, fr.CanRead i := by
  intro i hi
  simp only [stringCode, List.mem_cons, List.mem_flatMap, List.not_mem_nil, or_false] at hi
  rcases hi with rfl | rfl | ⟨c, _, rfl | rfl⟩ <;> trivial

theorem Env.canRead_push {x : Token} {tokens : List Token} (hf : Mention.fault env (.use x) = none)
    (hp : fr.HasPlaces env (x :: tokens)) : fr.CanRead (env.push x.lexeme) := by
  obtain ⟨v, hx⟩ := Mention.exists_find? hf
  rw [Env.push_of_find? hx, Frame.canRead_push_iff]
  exact hp x List.mem_cons_self v hx

mutual

theorem Term.canRead : (t : Term) → fault env t.mentions = none → fr.HasPlaces env t.tokens →
    ∀ i ∈ t.code env, fr.CanRead i
  | .number _, _, _ => by simp [Frame.CanRead]
  | .string constant, _, _ => canRead_stringCode constant.lexeme
  | .literal l _, _, _ => by cases l <;> simp [Literal.code, Frame.CanRead]
  | .var x, hf, hp => by
    have hf : Mention.fault env (.use x.token) = none := by
      simpa using hf
    simpa using Env.canRead_push hf hp
  | .element x _ index, hf, hp => by
    rw [Term.mentions, fault_cons, Option.or_eq_none_iff] at hf
    have hi := index.canRead hf.2 hp.of_cons.of_pair
    simpa [or_imp, forall_and, Frame.CanRead] using ⟨hi, Env.canRead_push hf.1 hp⟩
  | .call c, hf, hp => c.canRead hf hp
  | .paren _ e, hf, hp => e.canRead hf hp.of_pair
  | .unary op _ t, hf, hp => by
    cases op <;> simpa [or_imp, forall_and, Unary.code, Frame.CanRead] using t.canRead hf hp.of_cons

theorem Expression.canRead : (e : Expression) → fault env e.mentions = none → fr.HasPlaces env e.tokens →
    ∀ i ∈ e.code env, fr.CanRead i
  | .mk first rest, hf, hp => by
    rw [Expression.mentions, fault_append, Option.or_eq_none_iff] at hf
    exact List.forall_mem_append.mpr ⟨first.canRead hf.1 hp.of_append.1, rest.canRead hf.2 hp.of_append.2⟩

theorem Operations.canRead : (o : Operations) → fault env o.mentions = none → fr.HasPlaces env o.tokens →
    ∀ i ∈ o.code env, fr.CanRead i
  | .nil, _, _ => by simp
  | .cons op _ t rest, hf, hp => by
    rw [Operations.mentions, fault_append, Option.or_eq_none_iff] at hf
    have ht := t.canRead hf.1 hp.of_cons.of_append.1
    have hr := rest.canRead hf.2 hp.of_cons.of_append.2
    cases op <;> simpa [or_imp, forall_and, Operator.code, Frame.CanRead] using ⟨ht, hr⟩

theorem Call.canRead : (c : Call) → fault env c.mentions = none → fr.HasPlaces env c.tokens →
    ∀ i ∈ c.code env, fr.CanRead i
  | .own _ _ args, hf, hp => by
    simpa [or_imp, forall_and, Frame.CanRead] using args.canRead hf hp.of_cons.of_pair
  | .qualified x _ _ _ args, hf, hp => by
    have ha := args.canRead hf hp.of_cons.of_cons.of_cons.of_pair
    cases hx : env.find? x.lexeme with
    | none => simpa [hx, or_imp, forall_and, Frame.CanRead] using ha
    | some v =>
      have hv := Frame.canRead_push_iff.mpr (hp x.token List.mem_cons_self v hx)
      simpa [hx, or_imp, forall_and, Frame.CanRead] using ⟨hv, ha⟩

theorem Arguments.canRead : (a : Arguments) → fault env a.mentions = none → fr.HasPlaces env a.tokens →
    ∀ i ∈ a.code env, fr.CanRead i
  | .none, _, _ => by simp
  | .some first rest, hf, hp => by
    rw [Arguments.mentions, fault_append, Option.or_eq_none_iff] at hf
    exact List.forall_mem_append.mpr ⟨first.canRead hf.1 hp.of_append.1, rest.canRead hf.2 hp.of_append.2⟩

theorem MoreArguments.canRead : (a : MoreArguments) → fault env a.mentions = none →
    fr.HasPlaces env a.tokens → ∀ i ∈ a.code env, fr.CanRead i
  | .nil, _, _ => by simp
  | .cons _ e rest, hf, hp => by
    rw [MoreArguments.mentions, fault_append, Option.or_eq_none_iff] at hf
    have he := e.canRead hf.1 hp.of_cons.of_append.1
    exact List.forall_mem_append.mpr ⟨he, rest.canRead hf.2 hp.of_cons.of_append.2⟩

end

end Tree

namespace Pass

open Jack.Tree

/-- A state in a context with tokens ahead. -/
def State.facing (c : Context) (tokens : List Token) : State :=
  { State.start (.replay tokens) with
    className := c.className
    scopes := c.scopes
    nextIf := c.nextIf
    nextWhile := c.nextWhile }

theorem State.ahead_facing (c : Context) {tokens : List Token} (h : ∀ t ∈ tokens, t.terminal ≠ .eof) :
    (State.facing c tokens).ahead = tokens := by
  have ha : (State.facing c tokens).ahead = (State.start (.replay tokens)).ahead := rfl
  rw [ha, State.ahead_start]
  exact List.takeWhile_eq_self_iff.mpr (by simpa [Source.replay] using h)

/-- Trees of the same tokens give a procedure the same code. -/
theorem Runs.code_eq {α : Type} {p : Pass α} {c : Context} {rest : List Token} {a : α} {e e' : Effect}
    (h : Runs p c rest a e) (h' : Runs p c rest a e') (ht : e'.tokens = e.tokens)
    (hn : ∀ t ∈ e.tokens ++ rest, t.terminal ≠ .eof) (hf : e.fault = none) :
    e'.fault = none ∧ e'.code = e.code := by
  have ha := State.ahead_facing c hn
  have hr := h (State.facing c (e.tokens ++ rest)) rfl ha
  have hr' := h' (State.facing c (e.tokens ++ rest)) rfl (ht ▸ ha)
  rw [hf] at hr
  obtain ⟨s, hs, took⟩ := hr
  cases hf' : e'.fault with
  | some err =>
    rw [hf'] at hr'
    obtain ⟨s', hs'⟩ := hr'
    cases hs.symm.trans hs'
  | none =>
    rw [hf'] at hr'
    obtain ⟨s', hs', took'⟩ := hr'
    cases hs.symm.trans hs'
    exact ⟨rfl, List.append_cancel_left (took'.code.symm.trans took.code)⟩

/-- Expressions of the same tokens have the same code. -/
theorem code_eq_of_tokens_eq {c : Context} {e e' : Expression} (ht : e'.tokens = e.tokens)
    (hf : fault c.env e.mentions = none) :
    fault c.env e'.mentions = none ∧ e'.code c.env = e.code c.env := by
  let closing : Token := ⟨.punct .rparen, [], 0⟩
  have hr := expression_runs e.tokens.length e c [closing] (Nat.le_refl _) rfl
  have hr' := expression_runs e.tokens.length e' c [closing] (Nat.le_of_eq (congrArg _ ht)) rfl
  refine hr.code_eq hr' ht (fun t hm => ?_) hf
  rcases List.mem_append.mp hm with hm | hm
  · exact e.terminal_ne_eof t hm
  · rw [List.mem_singleton.mp hm]
    exact nofun

end Pass

open Jack.Tree

/-- Wherever the pass accepts an expression, the tokens that it takes are those of an expression. Whatever the
library, the block around the code, the frame and the memory are, as long as the frame has the variables of the
expression, the expression has a value, and the code added to that of the pass makes its calls and leaves its
value on the stack. -/
theorem expression_performs {n : Nat} {s s' : Pass.State} (h : Pass.expression n s = .ok () s') :
    (∃ e : Expression, s.ahead = e.tokens ++ s'.ahead) ∧
      ∀ e : Expression, s.ahead = e.tokens ++ s'.ahead →
        ∃ code, s'.code.toList = s.code.toList ++ code ∧
          ∀ (lib : Machine.Library) (block : List Instruction) (fr : Machine.Frame) (m : Machine.Memory),
            fr.HasPlaces s.context.env e.tokens →
            ∃ w m', e.eval lib s.context.env fr.this (fr.vars s.context.env) m = some (w, m') ∧
              ∀ stack, Machine.Performs lib block code fr stack m
                (e.calls lib s.context.env fr.this (fr.vars s.context.env) m) (w :: stack) m' := by
  obtain ⟨_, ⟨e₀, rfl⟩, took⟩ := Pass.expression_ensures n s.context s () s' rfl h
  refine ⟨⟨e₀, took.ahead⟩, fun e he => ?_⟩
  have ht : e.tokens = e₀.tokens := List.append_cancel_right (he.symm.trans took.ahead)
  obtain ⟨hf, hc⟩ := Pass.code_eq_of_tokens_eq ht took.fault
  refine ⟨e.code s.context.env, hc ▸ took.code, fun lib block fr m hp => ?_⟩
  obtain ⟨w, m', hw⟩ : ∃ w m', e.eval lib s.context.env fr.this (fr.vars s.context.env) m = some (w, m') :=
    e.exists_eval hf (e.canRead hf hp) m
  exact ⟨w, m', hw, fun stack => e.performs (fr.holds_vars _) hw stack⟩

namespace Counter

/-- k * 2 -/
def double : Expression := binary (var "k") .mul (number "2")

/-- In a subroutine with one local, k. -/
def inside : Pass.Context where
  className := "Counter"
  scopes := ({} : Scopes).declareAll [⟨"k", "int", .var⟩]
  nextIf := 0
  nextWhile := 0

/-- k * 2; -/
def doubling : Pass.State := .facing inside (double.tokens ++ [(symbol .semicolon).token])

/-- A frame in which k is 7. -/
def seven : Machine.Frame := ⟨[], [7], 0⟩

end Counter

open Counter in
theorem expression_performs_double :
    ∃ s', Pass.expression 3 doubling = .ok () s' ∧
      ∀ lib block m stack, Machine.Performs lib block s'.code.toList seven stack m [⟨"Math.multiply", [7, 2]⟩]
        ((lib "Math.multiply" [7, 2] m).1 :: stack) (lib "Math.multiply" [7, 2] m).2 := by
  have ha : doubling.ahead = double.tokens ++ [(symbol .semicolon).token] :=
    Pass.State.ahead_facing _ (by decide)
  obtain ⟨s', hs, took⟩ := Pass.expression_runs 3 double inside [(symbol .semicolon).token] (by decide) rfl
    doubling rfl ha
  refine ⟨s', hs, fun lib block m stack => ?_⟩
  obtain ⟨code, hc, hcode⟩ := (expression_performs hs).2 double took.ahead
  obtain ⟨w, m', hw, hp⟩ := hcode lib block seven m (by decide)
  cases hw
  rw [hc]
  exact hp stack

end Jack
