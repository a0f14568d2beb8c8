import Jack.Proofs.Calls

/-! The code of an expression computes its value: it leaves the value on the stack, the memory as the
calls have left it, and the frame as it was. -/

namespace Jack

namespace Machine

variable {lib : Library} {block : List Instruction} {fr : Frame}

/-- Code that makes one stack and memory out of others, whatever the second pointer and the temporary
segment are before and after it. -/
def Computes (lib : Library) (block code : List Instruction) (fr : Frame) (stack : List Word)
    (m : Memory) (stack' : List Word) (m' : Memory) : Prop :=
  ∀ P rest that temp, (∀ that temp, Reaches lib block P ⟨rest, stack', fr, that, temp, m'⟩) →
    Reaches lib block P ⟨code ++ rest, stack, fr, that, temp, m⟩

theorem Performs.computes {code : List Instruction} {stack stack' : List Word} {m m' : Memory}
    {calls : List Request} (h : Performs lib block code fr stack m calls stack' m') :
    Computes lib block code fr stack m stack' m' := by
  intro P rest that temp hk
  refine .of_runs calls fun log hlog => ?_
  obtain ⟨that', hr⟩ := h.run rest that temp log hlog
  exact ⟨_, hr, hk that' (Temp.after log temp)⟩

namespace Computes

variable {stack stack₁ stack₂ : List Word} {m m₁ m₂ : Memory}

theorem append {a b : List Instruction} (ha : Computes lib block a fr stack m stack₁ m₁)
    (hb : Computes lib block b fr stack₁ m₁ stack₂ m₂) :
    Computes lib block (a ++ b) fr stack m stack₂ m₂ := by
  intro P rest that temp h
  rw [List.append_assoc]
  exact ha P _ that temp fun that temp => hb P rest that temp h

theorem cons {i : Instruction} {b : List Instruction} (hi : Computes lib block [i] fr stack m stack₁ m₁)
    (hb : Computes lib block b fr stack₁ m₁ stack₂ m₂) :
    Computes lib block (i :: b) fr stack m stack₂ m₂ := hi.append hb

theorem arithmetic {op : Arithmetic} (h : Machine.arithmetic op stack = some stack₁) :
    Computes lib block [.arithmetic op] fr stack m stack₁ m :=
  fun _ _ _ _ hk => .arithmetic h (hk _ _)

end Computes

/-- The words of a subroutine that its own variables name. -/
def Frame.slots (fr : Frame) : Storage → List Word
  | .argument => fr.args
  | .var => fr.locals
  | _ => []

/-- A frame holds the values of variables where their declarations place them. -/
def Frame.Holds (env : Tree.Env) (vars : Tree.Vars) (fr : Frame) : Prop :=
  ∀ x v, env.find? x = some v → v.storage = .argument ∨ v.storage = .var →
    (fr.slots v.storage)[v.index]? = vars x

end Machine

namespace Tree

open Machine (Computes Frame Library Memory Performs)

variable {lib : Library} {block : List Instruction} {fr : Frame} {env : Env} {vars : Vars}
variable {m m' : Memory}

/-- A variable is read where its code pushes it from. -/
theorem Env.read_get (hh : fr.Holds env vars) {x : Text} {w : Machine.Word}
    (h : env.read fr.this vars m x = some w) (rest : List Instruction) (stack : List Machine.Word)
    (that : Machine.Word) (temp : Machine.Temp) :
    Machine.State.read ⟨rest, stack, fr, that, temp, m⟩ (env.get x).storage.segment (env.get x).index =
      some w := by
  unfold Env.read at h
  cases hx : env.find? x with
  | none => simp [hx] at h
  | some v =>
    have hv := hh x v hx
    simp only [Env.get, hx, Option.getD_some]
    simp only [hx, Option.bind_eq_bind, Option.bind_some] at h
    cases hs : v.storage with
    | static =>
      simp only [hs] at h
      exact h
    | field =>
      simp only [hs] at h
      exact h
    | argument =>
      simp only [hs, true_or, true_imp_iff] at h hv
      exact hv.trans h
    | var =>
      simp only [hs, or_true, true_imp_iff] at h hv
      exact hv.trans h
    | other name => simp [hs] at h

theorem Env.push_performs (hh : fr.Holds env vars) {x : Text} {w : Machine.Word}
    (h : env.read fr.this vars m x = some w) (stack : List Machine.Word) :
    Performs lib block [env.push x] fr stack m [] (w :: stack) m :=
  .push fun rest that temp => Env.read_get hh h rest stack that temp

theorem Literal.performs (l : Literal) (stack : List Machine.Word) :
    Performs lib block l.code fr stack m [] (l.value fr.this :: stack) m := by
  cases l with
  | true => exact .cons (.constant 0) (.arithmetic rfl)
  | false => exact .constant 0
  | null => exact .constant 0
  | this => exact .this

theorem appendChars_performs (chars : List Nat) (string : Machine.Word) (m : Memory)
    (stack : List Machine.Word) :
    Performs lib block
      (chars.flatMap fun (c : Nat) => [.push .constant c, .call "String.appendChar" 2]) fr
      (string :: stack) m (appendCalls lib chars string m) ((appendChars lib chars string m).1 :: stack)
      (appendChars lib chars string m).2 := by
  induction chars generalizing string m with
  | nil => exact .nil
  | cons c chars ih =>
    have hc : Performs lib block [.push .constant c, .call "String.appendChar" 2] fr (string :: stack) m
        [⟨"String.appendChar", [string, BitVec.ofNat 16 c]⟩] _ _ :=
      .cons (.constant c) (.call [string, BitVec.ofNat 16 c] rfl rfl)
    exact hc.append (ih _ _)

theorem stringCode_performs (lexeme : Text) (stack : List Machine.Word) :
    Performs lib block (stringCode lexeme) fr stack m (stringCalls lib lexeme m)
      ((stringValue lib lexeme m).1 :: stack) (stringValue lib lexeme m).2 := by
  have hc : Performs lib block [.push .constant (Utf8.codePoints lexeme).length, .call "String.new" 1] fr stack
      m [⟨"String.new", [BitVec.ofNat 16 (Utf8.codePoints lexeme).length]⟩] _ _ :=
    .cons (.constant _) (.call [BitVec.ofNat 16 (Utf8.codePoints lexeme).length] rfl rfl)
  exact hc.append (appendChars_performs _ _ _ stack)

theorem Unary.performs (op : Unary) (w : Machine.Word) (stack : List Machine.Word) :
    Performs lib block [op.code] fr (w :: stack) m [] (op.apply w :: stack) m := by
  cases op <;> exact .arithmetic rfl

theorem Operator.performs (op : Operator) (x y : Machine.Word) (stack : List Machine.Word) :
    Performs lib block [op.code] fr (y :: x :: stack) m (op.calls x y) ((op.apply lib x y m).1 :: stack)
      (op.apply lib x y m).2 := by
  cases op with
  | mul => exact .call [x, y] rfl rfl
  | div => exact .call [x, y] rfl rfl
  | _ => exact .arithmetic rfl

mutual

theorem Term.performs (hh : fr.Holds env vars) : (t : Term) → {m m' : Memory} → {w : Machine.Word} →
    t.eval lib env fr.this vars m = some (w, m') → (stack : List Machine.Word) →
    Performs lib block (t.code env) fr stack m (t.calls lib env fr.this vars m) (w :: stack) m'
  | .number constant, m, m', w, h, stack => by
    obtain ⟨n, hn, h⟩ := Option.map_eq_some_iff.mp h
    cases h
    simpa [hn] using .constant n
  | .string constant, m, m', w, h, stack => by
    have hs : stringValue lib constant.lexeme m = (w, m') := Option.some.inj h
    have hc : Performs lib block (stringCode constant.lexeme) fr stack m _ _ _ :=
      stringCode_performs constant.lexeme stack
    rwa [hs] at hc
  | .literal l _, m, m', w, h, stack => by
    cases h
    exact l.performs stack
  | .var x, m, m', w, h, stack => by
    obtain ⟨v, hv, h⟩ := Option.map_eq_some_iff.mp h
    cases h
    exact Env.push_performs hh hv stack
  | .element x _ index, m, m', w, h, stack => by
    obtain ⟨⟨i, m₁⟩, hi, h⟩ := Option.bind_eq_some_iff.mp h
    obtain ⟨base, hb, h⟩ := Option.bind_eq_some_iff.mp h
    cases h
    have hread : Performs lib block [env.push x.lexeme, .arithmetic .add, .pop .pointer 1, .push .that 0] fr
        (i :: stack) m' [] (m'.heap (i + base) :: stack) m' :=
      .cons (Env.push_performs hh hb _) (.cons (.arithmetic rfl) (.element (i + base)))
    rw [BitVec.add_comm base i, ← List.append_nil (Term.calls ..)]
    exact (index.performs hh hi stack).append hread
  | .call c, m, m', w, h, stack => c.performs hh h stack
  | .paren _ e, m, m', w, h, stack => e.performs hh h stack
  | .unary op _ t, m, m', w, h, stack => by
    obtain ⟨⟨v, m₁⟩, hv, h⟩ := Option.bind_eq_some_iff.mp h
    cases h
    rw [← List.append_nil (Term.calls ..)]
    exact (t.performs hh hv stack).append (op.performs v stack)

theorem Expression.performs (hh : fr.Holds env vars) : (e : Expression) → {m m' : Memory} →
    {w : Machine.Word} → e.eval lib env fr.this vars m = some (w, m') → (stack : List Machine.Word) →
    Performs lib block (e.code env) fr stack m (e.calls lib env fr.this vars m) (w :: stack) m'
  | .mk first rest, m, m', w, h, stack => by
    obtain ⟨⟨v, m₁⟩, hv, h⟩ := Option.bind_eq_some_iff.mp h
    simp only [Expression.calls, hv, Option.elim_some]
    exact (first.performs hh hv stack).append (rest.performs hh h stack)

theorem Operations.performs (hh : fr.Holds env vars) : (o : Operations) → {m m' : Memory} →
    {x w : Machine.Word} → o.eval lib env fr.this vars x m = some (w, m') →
    (stack : List Machine.Word) → Performs lib block (o.code env) fr (x :: stack) m
      (o.calls lib env fr.this vars x m) (w :: stack) m'
  | .nil, m, m', x, w, h, stack => by
    cases h
    exact .nil
  | .cons op _ t rest, m, m', x, w, h, stack => by
    obtain ⟨⟨y, m₁⟩, hy, h⟩ := Option.bind_eq_some_iff.mp h
    simp only [Operations.calls, hy, Option.elim_some]
    exact (t.performs hh hy (x :: stack)).append
      (.append (op.performs x y stack) (rest.performs hh h stack))

theorem Call.performs (hh : fr.Holds env vars) : (c : Call) → {m m' : Memory} → {w : Machine.Word} →
    c.eval lib env fr.this vars m = some (w, m') → (stack : List Machine.Word) →
    Performs lib block (c.code env) fr stack m (c.calls lib env fr.this vars m) (w :: stack) m'
  | .own f _ args, m, m', w, h, stack => by
    obtain ⟨⟨ws, m₁⟩, hws, h⟩ := Option.bind_eq_some_iff.mp h
    obtain ⟨hl, ha⟩ := args.performs hh hws (fr.this :: stack)
    simp only [Call.calls, hws, Option.elim_some]
    exact .append (.cons .this ha) (.callWith hl (Option.some.inj h))
  | .qualified x _ f _ args, m, m', w, h, stack => by
    cases hx : env.find? x.lexeme with
    | none =>
      simp only [Call.eval, hx] at h
      obtain ⟨⟨ws, m₁⟩, hws, h⟩ := Option.bind_eq_some_iff.mp h
      obtain ⟨hl, ha⟩ := args.performs hh hws stack
      simp only [Call.code, Call.calls, hx, hws, Option.elim_some]
      exact ha.append (.call ws hl (Option.some.inj h))
    | some v =>
      simp only [Call.eval, hx] at h
      obtain ⟨receiver, hr, h⟩ := Option.bind_eq_some_iff.mp h
      obtain ⟨⟨ws, m₁⟩, hws, h⟩ := Option.bind_eq_some_iff.mp h
      obtain ⟨hl, ha⟩ := args.performs hh hws (receiver :: stack)
      have hp : Performs lib block [env.push x.lexeme] fr stack m [] (receiver :: stack) m :=
        Env.push_performs hh hr stack
      simp only [Env.push, Env.get, hx, Option.getD_some] at hp
      simp only [Call.code, Call.calls, hx, hws, hr, Option.elim_some]
      exact .append (.cons hp ha) (.callWith hl (Option.some.inj h))

/-- The values of arguments are left on the stack, the last one on top. -/
theorem Arguments.performs (hh : fr.Holds env vars) : (a : Arguments) → {m m' : Memory} →
    {ws : List Machine.Word} → a.eval lib env fr.this vars m = some (ws, m') →
    (stack : List Machine.Word) →
    ws.length = a.count ∧ Performs lib block (a.code env) fr stack m (a.calls lib env fr.this vars m)
      (ws.reverse ++ stack) m'
  | .none, m, m', ws, h, stack => by
    cases h
    exact ⟨rfl, .nil⟩
  | .some first rest, m, m', ws, h, stack => by
    obtain ⟨⟨v, m₁⟩, hv, h⟩ := Option.bind_eq_some_iff.mp h
    obtain ⟨⟨vs, m₂⟩, hvs, h⟩ := Option.bind_eq_some_iff.mp h
    cases h
    obtain ⟨hl, hr⟩ := rest.performs hh hvs (v :: stack)
    refine ⟨by simp [hl], ?_⟩
    simp only [Arguments.calls, hv, Option.elim_some]
    simpa using (first.performs hh hv stack).append hr

theorem MoreArguments.performs (hh : fr.Holds env vars) : (a : MoreArguments) → {m m' : Memory} →
    {ws : List Machine.Word} → a.eval lib env fr.this vars m = some (ws, m') →
    (stack : List Machine.Word) →
    ws.length = a.count ∧ Performs lib block (a.code env) fr stack m (a.calls lib env fr.this vars m)
      (ws.reverse ++ stack) m'
  | .nil, m, m', ws, h, stack => by
    cases h
    exact ⟨rfl, .nil⟩
  | .cons _ e rest, m, m', ws, h, stack => by
    obtain ⟨⟨v, m₁⟩, hv, h⟩ := Option.bind_eq_some_iff.mp h
    obtain ⟨⟨vs, m₂⟩, hvs, h⟩ := Option.bind_eq_some_iff.mp h
    cases h
    obtain ⟨hl, hr⟩ := rest.performs hh hvs (v :: stack)
    refine ⟨by simp [hl], ?_⟩
    simp only [MoreArguments.calls, hv, Option.elim_some]
    simpa using (e.performs hh hv stack).append hr

end

/-! The same without the calls. -/

theorem Env.push_computes (hh : fr.Holds env vars) {x : Text} {w : Machine.Word}
    (h : env.read fr.this vars m x = some w) (stack : List Machine.Word) :
    Computes lib block [env.push x] fr stack m (w :: stack) m :=
  (Env.push_performs hh h stack).computes

theorem Expression.computes (hh : fr.Holds env vars) (e : Expression) {w : Machine.Word}
    (h : e.eval lib env fr.this vars m = some (w, m')) (stack : List Machine.Word) :
    Computes lib block (e.code env) fr stack m (w :: stack) m' :=
  (e.performs hh h stack).computes

theorem Call.computes (hh : fr.Holds env vars) (c : Call) {w : Machine.Word}
    (h : c.eval lib env fr.this vars m = some (w, m')) (stack : List Machine.Word) :
    Computes lib block (c.code env) fr stack m (w :: stack) m' :=
  (c.performs hh h stack).computes

end Tree

end Jack
