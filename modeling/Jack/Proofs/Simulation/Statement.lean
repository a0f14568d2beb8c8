import Jack.Proofs.Simulation.Expression

/-! The code of statements does what they mean: structured control is followed by jumps. -/

namespace Jack

/-- Different names of a subroutine stand for different places. -/
def Tree.Env.Distinct (env : Env) : Prop :=
  ∀ x y v u, env.find? x = some v → env.find? y = some u → v.storage.ofClass = false →
    v.storage = u.storage → v.index = u.index → x = y

namespace Machine

open Jack.Tree (Env Store)

variable {lib : Library} {block : List Instruction} {P : State → Prop} {env : Env} {this : Word}

def Frame.set (fr : Frame) (index : Nat) (w : Word) : Storage → Frame
  | .argument => { fr with args := fr.args.set index w }
  | .var => { fr with locals := fr.locals.set index w }
  | _ => fr

theorem Frame.slots_set (fr : Frame) (index : Nat) (w : Word) (storage storage' : Storage) :
    (fr.set index w storage).slots storage' =
      if storage' = storage then (fr.slots storage).set index w else fr.slots storage' := by
  cases storage <;> cases storage' <;> simp [Frame.set, Frame.slots]

/-- A word is set in the place of one variable and of no other. -/
theorem Frame.Holds.set {fr : Frame} {vars : Tree.Vars} {x : Text} {v : Variable} (hd : env.Distinct)
    (hh : fr.Holds env vars) (hx : env.find? x = some v) (hs : v.storage = .argument ∨ v.storage = .var)
    (hi : v.index < (fr.slots v.storage).length) (w : Word) :
    (fr.set v.index w v.storage).Holds env fun y => if y = x then some w else vars y := by
  have hc : v.storage.ofClass = false := by
    obtain hs | hs := hs <;> rw [hs] <;> rfl
  intro y u hy hu
  rw [Frame.slots_set]
  by_cases hyx : y = x
  · subst hyx
    obtain rfl : v = u := Option.some.inj (hx.symm.trans hy)
    simp [hi]
  · simp only [if_neg hyx]
    rw [← hh y u hy hu]
    by_cases he : u.storage = v.storage
    · have hne : v.index ≠ u.index := fun h => hyx (hd x y v u hx hy hc he.symm h).symm
      rw [if_pos he, List.getElem?_set_ne hne, he]
    · rw [if_neg he]

/-- What follows statements in a block comes to `P`: what stands behind them if they end, and a return
if they return. The frame then holds the variables of the store. -/
def Leads (lib : Library) (block : List Instruction) (P : State → Prop) (env : Env) (this : Word)
    (stack : List Word) (post : List Instruction) (r : Option Word) (σ : Store) : Prop :=
  ∀ fr that temp rest, fr.this = this → fr.Holds env σ.vars →
    match r with
    | none => Reaches lib block P ⟨post, stack, fr, that, temp, σ.memory⟩
    | some v => Reaches lib block P ⟨.ret :: rest, v :: stack, fr, that, temp, σ.memory⟩

/-- Code of a block takes a frame that holds one store to one that holds another. -/
def Simulates (lib : Library) (block : List Instruction) (env : Env) (this : Word)
    (code : List Instruction) (σ : Store) (r : Option Word) (σ' : Store) : Prop :=
  ∀ P post stack fr that temp, fr.this = this → fr.Holds env σ.vars → code ++ post <:+ block →
    Leads lib block P env this stack post r σ' →
    Reaches lib block P ⟨code ++ post, stack, fr, that, temp, σ.memory⟩

namespace Leads

variable {stack : List Word} {post rest : List Instruction} {r : Option Word} {σ : Store} {l : Label}

theorem label (h : Leads lib block P env this stack post r σ) :
    Leads lib block P env this stack (.label l :: post) r σ := by
  intro fr that temp rest ht hh
  cases r with
  | none => exact .label (h fr that temp rest ht hh)
  | some v => exact h fr that temp rest ht hh

theorem goto (hl : findLabel l block = some post) (h : Leads lib block P env this stack post r σ) :
    Leads lib block P env this stack (.goto l :: rest) r σ := by
  intro fr that temp rest ht hh
  cases r with
  | none => exact .goto hl (h fr that temp rest ht hh)
  | some v => exact h fr that temp rest ht hh

end Leads

theorem suffix_of_append {a b : List Instruction} (h : a ++ b <:+ block) : b <:+ block :=
  (List.suffix_append a b).trans h

theorem suffix_of_cons {i : Instruction} {b : List Instruction} (h : i :: b <:+ block) : b <:+ block :=
  (List.suffix_cons i b).trans h

namespace Simulates

variable {a b : List Instruction} {σ σ₁ σ₂ : Store} {r : Option Word} {v : Word}

theorem nil : Simulates lib block env this [] σ none σ :=
  fun _ _ _ fr that temp ht hh _ hk => hk fr that temp [] ht hh

theorem append (ha : Simulates lib block env this a σ none σ₁)
    (hb : Simulates lib block env this b σ₁ r σ₂) :
    Simulates lib block env this (a ++ b) σ r σ₂ := by
  intro P post stack fr that temp ht hh hs hk
  rw [List.append_assoc] at hs ⊢
  refine ha P (b ++ post) stack fr that temp ht hh hs fun fr that temp _ ht hh => ?_
  exact hb P post stack fr that temp ht hh (suffix_of_append hs) hk

/-- What stands behind a return is not reached. -/
theorem append_of_return (ha : Simulates lib block env this a σ (some v) σ₁) :
    Simulates lib block env this (a ++ b) σ (some v) σ₁ := by
  intro P post stack fr that temp ht hh hs hk
  rw [List.append_assoc] at hs ⊢
  exact ha P (b ++ post) stack fr that temp ht hh hs hk

end Simulates

end Machine

namespace Tree

open Machine (Reaches Computes Leads Simulates Frame Library Memory findLabel labels suffix_of_append
  suffix_of_cons)

variable {lib : Library} {block : List Instruction} {env : Env} {this : Machine.Word}

theorem Env.pop_reaches {P : Machine.State → Prop} {fr : Frame} {σ σ' : Store} {x : Text}
    {w that : Machine.Word} {stack : List Machine.Word} {rest : List Instruction} {temp : Machine.Temp}
    (hd : env.Distinct) (h : env.write fr.this σ x w = some σ') (hh : fr.Holds env σ.vars)
    (hk : ∀ fr', fr'.this = fr.this → fr'.Holds env σ'.vars →
      Reaches lib block P ⟨rest, stack, fr', that, temp, σ'.memory⟩) :
    Reaches lib block P ⟨env.pop x :: rest, w :: stack, fr, that, temp, σ.memory⟩ := by
  unfold Env.write at h
  cases hx : env.find? x with
  | none => simp [hx] at h
  | some v =>
    have hv := hh x v hx
    simp only [hx, Option.bind_eq_bind, Option.bind_some] at h
    simp only [Env.pop, Env.get, hx, Option.getD_some]
    cases hs : v.storage with
    | static =>
      simp only [hs] at h
      cases h
      exact .pop rfl (hk fr rfl hh)
    | field =>
      simp only [hs] at h
      cases h
      exact .pop rfl (hk fr rfl hh)
    | argument =>
      simp only [hs] at h
      obtain ⟨old, ho, h⟩ := Option.bind_eq_some_iff.mp h
      cases h
      have hi : v.index < fr.args.length := by
        have := hh x v hx (.inl hs)
        rw [hs, ho] at this
        exact (List.getElem?_eq_some_iff.mp this).1
      have hh' := hh.set hd hx (.inl hs) (by simpa [hs, Frame.slots] using hi) w
      rw [hs] at hh'
      exact .pop (if_pos hi) (hk _ rfl hh')
    | var =>
      simp only [hs] at h
      obtain ⟨old, ho, h⟩ := Option.bind_eq_some_iff.mp h
      cases h
      have hi : v.index < fr.locals.length := by
        have := hh x v hx (.inr hs)
        rw [hs, ho] at this
        exact (List.getElem?_eq_some_iff.mp this).1
      have hh' := hh.set hd hx (.inr hs) (by simpa [hs, Frame.slots] using hi) w
      rw [hs] at hh'
      exact .pop (if_pos hi) (hk _ rfl hh')
    | other name => simp [hs] at h

theorem letVar_simulates (hd : env.Distinct) {word : Word .let} {x : Name} {eq : Symbol .eq}
    {value : Expression} {semicolon : Symbol .semicolon} {σ σ' : Store} {w : Machine.Word} {m : Memory}
    (hv : value.eval lib env this σ.vars σ.memory = some (w, m))
    (hw : env.write this { σ with memory := m } x.lexeme w = some σ') (i j : Nat) :
    Simulates lib block env this (Statement.code env i j (.letVar word x eq value semicolon)) σ none
      σ' := by
  rintro P post stack fr that temp rfl hh hs hk
  rw [Statement.code, List.append_assoc]
  refine value.computes hh hv stack P _ that temp fun that temp => ?_
  exact Env.pop_reaches hd hw hh fun fr' ht hh' => hk fr' that temp [] ht hh'

theorem letElement_simulates {word : Word .let} {x : Name} {brackets : Brackets} {index : Expression}
    {eq : Symbol .eq} {value : Expression} {semicolon : Symbol .semicolon} {σ : Store}
    {k base w : Machine.Word} {m₁ m₂ : Memory}
    (hi : index.eval lib env this σ.vars σ.memory = some (k, m₁))
    (hb : env.read this σ.vars m₁ x.lexeme = some base)
    (hv : value.eval lib env this σ.vars m₁ = some (w, m₂)) (i j : Nat) :
    Simulates lib block env this
      (Statement.code env i j (.letElement word x brackets index eq value semicolon)) σ none
      { σ with memory := m₂.setHeap (base + k) w } := by
  rintro P post stack fr that temp rfl hh hs hk
  have ha : Computes lib block (index.code env ++ env.push x.lexeme :: .arithmetic .add ::
      value.code env) fr stack σ.memory (w :: (k + base) :: stack) m₂ :=
    (index.computes hh hi stack).append <| .cons (Env.push_computes hh hb _) <|
      .cons (.arithmetic rfl) (value.computes hh hv _)
  rw [Statement.code, List.append_assoc]
  refine ha P _ that temp fun that temp => ?_
  -- The value waits in the temporary segment while the second pointer takes the address.
  refine .pop rfl (.pop rfl (.push (w := w) (by simp [Machine.State.read]) (.pop rfl ?_)))
  have hadr : k + base + BitVec.ofNat 16 0 = base + k := by simp [BitVec.add_comm]
  have hm := hk fr (k + base) (fun i => if i = 0 then w else temp i) [] rfl hh
  rw [← hadr] at hm
  exact hm

theorem do_simulates {word : Word .do} {call : Call} {semicolon : Symbol .semicolon} {σ : Store}
    {w : Machine.Word} {m : Memory} (hc : call.eval lib env this σ.vars σ.memory = some (w, m))
    (i j : Nat) :
    Simulates lib block env this (Statement.code env i j (.do word call semicolon)) σ none
      { σ with memory := m } := by
  rintro P post stack fr that temp rfl hh hs hk
  rw [Statement.code, List.append_assoc]
  refine call.computes hh hc stack P _ that temp fun that temp => ?_
  exact .pop rfl (hk fr that _ [] rfl hh)

theorem return_simulates {word : Word .return} {semicolon : Symbol .semicolon} {σ : Store}
    (i j : Nat) :
    Simulates lib block env this (Statement.code env i j (.return word semicolon)) σ (some 0) σ := by
  rintro P post stack fr that temp rfl hh hs hk
  exact .push rfl (hk fr that temp post rfl hh)

theorem returnValue_simulates {word : Word .return} {value : Expression}
    {semicolon : Symbol .semicolon} {σ : Store} {w : Machine.Word} {m : Memory}
    (hv : value.eval lib env this σ.vars σ.memory = some (w, m)) (i j : Nat) :
    Simulates lib block env this (Statement.code env i j (.returnValue word value semicolon)) σ (some w)
      { σ with memory := m } := by
  rintro P post stack fr that temp rfl hh hs hk
  rw [Statement.code, List.append_assoc]
  exact value.computes hh hv stack P _ that temp fun that temp => hk fr that temp post rfl hh

section

variable (hn : ((labels block).map Label.name).Nodup)
variable {P : Machine.State → Prop} {fr : Frame} {stack : List Machine.Word} {that : Machine.Word}
variable {temp : Machine.Temp} {cond : Expression} {σ σ' : Store} {v : Machine.Word} {m : Memory}
variable {r : Option Machine.Word} {i j : Nat}

include hn

/-- A conditional whose condition holds goes on behind its first label. -/
theorem then_reaches {t f : Label} {rest : List Instruction} (hh : fr.Holds env σ.vars)
    (hc : cond.eval lib env fr.this σ.vars σ.memory = some (v, m)) (hv : v ≠ 0)
    (hs : cond.code env ++ .ifGoto t :: .goto f :: .label t :: rest <:+ block)
    (hk : ∀ that temp, Reaches lib block P ⟨rest, stack, fr, that, temp, m⟩) :
    Reaches lib block P
      ⟨cond.code env ++ .ifGoto t :: .goto f :: .label t :: rest, stack, fr, that, temp, σ.memory⟩ := by
  have ht : .label t :: rest <:+ block := suffix_of_cons (suffix_of_cons (suffix_of_append hs))
  refine cond.computes hh hc stack P _ that temp fun that temp => ?_
  exact .ifGoto hv (Machine.findLabel_eq_of_suffix ht hn) (.label (hk that temp))

/-- A conditional whose condition does not hold goes on behind its second label. -/
theorem else_reaches {t f : Label} {rest other : List Instruction} (hh : fr.Holds env σ.vars)
    (hc : cond.eval lib env fr.this σ.vars σ.memory = some (0, m)) (hs : .label f :: other <:+ block)
    (hk : ∀ that temp, Reaches lib block P ⟨other, stack, fr, that, temp, m⟩) :
    Reaches lib block P
      ⟨cond.code env ++ .ifGoto t :: .goto f :: rest, stack, fr, that, temp, σ.memory⟩ := by
  refine cond.computes hh hc stack P _ that temp fun that temp => ?_
  exact .ifGoto_zero (.goto (Machine.findLabel_eq_of_suffix hs hn) (.label (hk that temp)))

theorem ifThen_simulates {word : Word .if} {parens : Parens} {braces : Braces} {body : Statements}
    (hc : cond.eval lib env this σ.vars σ.memory = some (v, m)) (hv : v ≠ 0)
    (hb : Simulates lib block env this (body.code env (i + 1) j) { σ with memory := m } r σ') :
    Simulates lib block env this (Statement.code env i j (.ifThen word parens cond braces body)) σ r
      σ' := by
  rintro P post stack fr that temp rfl hh hs hk
  simp only [Statement.code, List.append_assoc, List.cons_append, List.nil_append] at hs ⊢
  have ht := suffix_of_cons (suffix_of_cons (suffix_of_append hs))
  refine then_reaches hn hh hc hv hs fun that temp => ?_
  exact hb P _ stack fr that temp rfl hh (suffix_of_cons ht) hk.label

theorem ifThenNot_simulates {word : Word .if} {parens : Parens} {braces : Braces} {body : Statements}
    (hc : cond.eval lib env this σ.vars σ.memory = some (0, m)) :
    Simulates lib block env this (Statement.code env i j (.ifThen word parens cond braces body)) σ none
      { σ with memory := m } := by
  rintro P post stack fr that temp rfl hh hs hk
  simp only [Statement.code, List.append_assoc, List.cons_append, List.nil_append] at hs ⊢
  have ht := suffix_of_cons (suffix_of_cons (suffix_of_append hs))
  have hf : .label (.ifFalse i) :: post <:+ block := suffix_of_append (suffix_of_cons ht)
  exact else_reaches hn hh hc hf fun that temp => hk fr that temp [] rfl hh

theorem ifElse_simulates {word : Word .if} {parens : Parens} {braces : Braces} {body : Statements}
    {elseWord : Word .else} {elseBraces : Braces} {elseBody : Statements}
    (hc : cond.eval lib env this σ.vars σ.memory = some (v, m)) (hv : v ≠ 0)
    (hb : Simulates lib block env this (body.code env (i + 1) j) { σ with memory := m } r σ') :
    Simulates lib block env this (Statement.code env i j
      (.ifElse word parens cond braces body elseWord elseBraces elseBody)) σ r σ' := by
  rintro P post stack fr that temp rfl hh hs hk
  simp only [Statement.code, List.append_assoc, List.cons_append, List.nil_append] at hs ⊢
  have ht := suffix_of_cons (suffix_of_cons (suffix_of_append hs))
  have hf := suffix_of_cons (suffix_of_append (suffix_of_cons ht))
  have he : .label (.ifEnd i) :: post <:+ block := suffix_of_append (suffix_of_cons hf)
  refine then_reaches hn hh hc hv hs fun that temp => ?_
  refine hb P _ stack fr that temp rfl hh (suffix_of_cons ht) ?_
  exact hk.label.goto (Machine.findLabel_eq_of_suffix he hn)

theorem ifElseNot_simulates {word : Word .if} {parens : Parens} {braces : Braces} {body : Statements}
    {elseWord : Word .else} {elseBraces : Braces} {elseBody : Statements}
    (hc : cond.eval lib env this σ.vars σ.memory = some (0, m))
    (hb : Simulates lib block env this (elseBody.code env (i + 1 + body.ifs) (j + body.whiles))
      { σ with memory := m } r σ') :
    Simulates lib block env this (Statement.code env i j
      (.ifElse word parens cond braces body elseWord elseBraces elseBody)) σ r σ' := by
  rintro P post stack fr that temp rfl hh hs hk
  simp only [Statement.code, List.append_assoc, List.cons_append, List.nil_append] at hs ⊢
  have ht := suffix_of_cons (suffix_of_cons (suffix_of_append hs))
  have hf := suffix_of_cons (suffix_of_append (suffix_of_cons ht))
  refine else_reaches hn hh hc hf fun that temp => ?_
  exact hb P _ stack fr that temp rfl hh (suffix_of_cons hf) hk.label

omit hn in
/-- A loop whose condition is `true` goes on with its body. -/
theorem loop_reaches {e : Label} {rest : List Instruction} (hh : fr.Holds env σ.vars)
    (hc : cond.eval lib env fr.this σ.vars σ.memory = some (Machine.ofBool true, m))
    (hk : ∀ that temp, Reaches lib block P ⟨rest, stack, fr, that, temp, m⟩) :
    Reaches lib block P
      ⟨cond.code env ++ .arithmetic .not :: .ifGoto e :: rest, stack, fr, that, temp, σ.memory⟩ := by
  refine cond.computes hh hc stack P _ that temp fun that temp => ?_
  exact .arithmetic rfl (.ifGoto_zero (hk that temp))

theorem while_simulates {word : Word .while} {parens : Parens} {braces : Braces} {body : Statements}
    {σ₁ : Store} (hc : cond.eval lib env this σ.vars σ.memory = some (Machine.ofBool true, m))
    (hb : Simulates lib block env this (body.code env i (j + 1)) { σ with memory := m } none σ₁)
    (hw : Simulates lib block env this (Statement.code env i j (.while word parens cond braces body)) σ₁
      r σ') :
    Simulates lib block env this (Statement.code env i j (.while word parens cond braces body)) σ r
      σ' := by
  rintro P post stack fr that temp rfl hh hs hk
  have hw := fun fr that temp ht hh => hw P post stack fr that temp ht hh hs hk
  simp only [Statement.code, List.append_assoc, List.cons_append, List.nil_append] at hs hw ⊢
  have hbody := suffix_of_cons (suffix_of_cons (suffix_of_append (suffix_of_cons hs)))
  refine .label (loop_reaches hh hc fun that temp => ?_)
  refine hb P _ stack fr that temp rfl hh hbody fun fr that temp _ ht hh => ?_
  -- Behind the body the loop starts again at its own label, which is where `hw` begins.
  exact .goto (Machine.findLabel_eq_of_suffix hs hn) (hw fr that temp ht hh)

omit hn in
theorem whileReturn_simulates {word : Word .while} {parens : Parens} {braces : Braces}
    {body : Statements} (hc : cond.eval lib env this σ.vars σ.memory = some (Machine.ofBool true, m))
    (hb : Simulates lib block env this (body.code env i (j + 1)) { σ with memory := m } (some v) σ') :
    Simulates lib block env this (Statement.code env i j (.while word parens cond braces body)) σ
      (some v) σ' := by
  rintro P post stack fr that temp rfl hh hs hk
  simp only [Statement.code, List.append_assoc, List.cons_append, List.nil_append] at hs ⊢
  have hbody := suffix_of_cons (suffix_of_cons (suffix_of_append (suffix_of_cons hs)))
  refine .label (loop_reaches hh hc fun that temp => ?_)
  exact hb P _ stack fr that temp rfl hh hbody hk

theorem whileNot_simulates {word : Word .while} {parens : Parens} {braces : Braces}
    {body : Statements} (hc : cond.eval lib env this σ.vars σ.memory = some (v, m))
    (hv : v ≠ Machine.ofBool true) :
    Simulates lib block env this (Statement.code env i j (.while word parens cond braces body)) σ none
      { σ with memory := m } := by
  rintro P post stack fr that temp rfl hh hs hk
  simp only [Statement.code, List.append_assoc, List.cons_append, List.nil_append] at hs ⊢
  have hbody := suffix_of_cons (suffix_of_cons (suffix_of_append (suffix_of_cons hs)))
  have he : .label (.whileEnd j) :: post <:+ block := suffix_of_cons (suffix_of_append hbody)
  have hv : ~~~v ≠ 0 := by
    intro h
    apply hv
    rw [← BitVec.not_not (b := v), h]
    rfl
  refine .label (cond.computes hh hc stack P _ that temp fun that temp => ?_)
  exact .arithmetic rfl (.ifGoto hv (Machine.findLabel_eq_of_suffix he hn)
    (.label (hk fr that temp [] rfl hh)))

end

mutual

theorem Statement.simulates (hd : env.Distinct) (hn : ((labels block).map Label.name).Nodup)
    {st : Statement} {σ σ' : Store} {r : Option Machine.Word} (h : st.Exec lib env this σ r σ')
    (i j : Nat) :
    Simulates lib block env this (st.code env i j) σ r σ' := by
  -- The recursion is on the run: that of a loop holds the run of the loop after one turn of it.
  match h with
  | .letVar hv hw => exact letVar_simulates hd hv hw i j
  | .letElement hi hb hv => exact letElement_simulates hi hb hv i j
  | .ifThen hc hw hb => exact ifThen_simulates hn hc hw (Statements.simulates hd hn hb _ _)
  | .ifThenNot hc => exact ifThenNot_simulates hn hc
  | .ifElse hc hw hb => exact ifElse_simulates hn hc hw (Statements.simulates hd hn hb _ _)
  | .ifElseNot hc hb => exact ifElseNot_simulates hn hc (Statements.simulates hd hn hb _ _)
  | .while hc hb hw =>
    exact while_simulates hn hc (Statements.simulates hd hn hb _ _) (Statement.simulates hd hn hw i j)
  | .whileReturn hc hb => exact whileReturn_simulates hc (Statements.simulates hd hn hb _ _)
  | .whileNot hc hw => exact whileNot_simulates hn hc hw
  | .do hc => exact do_simulates hc i j
  | .return => exact return_simulates i j
  | .returnValue hv => exact returnValue_simulates hv i j

theorem Statements.simulates (hd : env.Distinct) (hn : ((labels block).map Label.name).Nodup)
    {sts : Statements} {σ σ' : Store} {r : Option Machine.Word} (h : sts.Exec lib env this σ r σ')
    (i j : Nat) :
    Simulates lib block env this (sts.code env i j) σ r σ' := by
  match h with
  | .nil => exact .nil
  | .cons hf hr => exact (Statement.simulates hd hn hf i j).append (Statements.simulates hd hn hr _ _)
  | .consReturn hf => exact (Statement.simulates hd hn hf i j).append_of_return

end

end Tree

end Jack
