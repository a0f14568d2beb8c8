import Jack.Proofs.Machine.Run
import Jack.Proofs.Text
import Jack.Proofs.Translation
import Mathlib.Data.List.Nodup

/-! The labels of a subroutine. Those of a statement carry the numbers that it is given, so no two labels
of a subroutine have the same name. -/

namespace Jack

namespace Label

/-- A label with a number from the given ranges, one for conditionals and one for loops. -/
def Within (i w i' w' : Nat) : Label → Prop
  | .ifTrue n | .ifFalse n | .ifEnd n => i ≤ n ∧ n < i'
  | .whileExp n | .whileEnd n => w ≤ n ∧ n < w'
  | .named _ => False

/-- Numbered labels of the same name are the same. -/
theorem Within.eq_of_name_eq {i w i' w' : Nat} {l k : Label} (hl : l.Within i w i' w')
    (hk : k.Within i w i' w') (h : l.name = k.name) : l = k := by
  have ht : ("IF_TRUE" : Text) = [73, 70, 95, 84, 82, 85, 69] := by decide
  have hf : ("IF_FALSE" : Text) = [73, 70, 95, 70, 65, 76, 83, 69] := by decide
  have he : ("IF_END" : Text) = [73, 70, 95, 69, 78, 68] := by decide
  have hx : ("WHILE_EXP" : Text) = [87, 72, 73, 76, 69, 95, 69, 88, 80] := by decide
  have hn : ("WHILE_END" : Text) = [87, 72, 73, 76, 69, 95, 69, 78, 68] := by decide
  have hinj : ∀ {m n : Nat}, Text.ofNat m = Text.ofNat n ↔ m = n :=
    ⟨Text.ofNat_injective, congrArg Text.ofNat⟩
  -- Names of different kinds differ in a letter, those of one kind in the number.
  cases l <;> cases k <;>
    simp_all [name, Within]

/-- Labels that are all different and have numbers from the given ranges. -/
structure Numbered (i w i' w' : Nat) (ls : List Label) : Prop where
  le_ifs : i ≤ i'
  le_whiles : w ≤ w'
  within : ∀ l ∈ ls, l.Within i w i' w'
  nodup : ls.Nodup

namespace Numbered

variable {i w i₁ w₁ i₂ w₂ : Nat} {a b : List Label}

theorem nil : Numbered i w i w [] := ⟨by omega, by omega, by simp, by simp⟩

/-- Labels of one stretch differ from those of the next. -/
theorem append (ha : Numbered i w i₁ w₁ a) (hb : Numbered i₁ w₁ i₂ w₂ b) :
    Numbered i w i₂ w₂ (a ++ b) := by
  have hi₁ := ha.le_ifs
  have hi₂ := hb.le_ifs
  have hw₁ := ha.le_whiles
  have hw₂ := hb.le_whiles
  refine ⟨by omega, by omega, fun l hl => ?_, ?_⟩
  · obtain h | h := List.mem_append.mp hl
    · have := ha.within l h
      cases l <;> simp only [Within] at this ⊢ <;> omega
    · have := hb.within l h
      cases l <;> simp only [Within] at this ⊢ <;> omega
  · refine List.nodup_append.mpr ⟨ha.nodup, hb.nodup, fun l hl k hk h => ?_⟩
    subst h
    have h₁ := ha.within l hl
    have h₂ := hb.within l hk
    cases l <;> simp only [Within] at h₁ h₂ <;> omega

theorem perm (h : Numbered i w i₁ w₁ a) (hp : a.Perm b) : Numbered i w i₁ w₁ b :=
  ⟨h.le_ifs, h.le_whiles, fun l hl => h.within l (hp.mem_iff.mpr hl), hp.nodup_iff.mp h.nodup⟩

theorem ifThen (h : Numbered (i + 1) w i₁ w₁ a) :
    Numbered i w i₁ w₁ (.ifTrue i :: (a ++ [.ifFalse i])) := by
  have own : Numbered i w (i + 1) w [.ifTrue i, .ifFalse i] :=
    ⟨by omega, by omega, by simp [Within], by simp⟩
  exact (own.append h).perm (.cons _ (List.perm_append_singleton _ _).symm)

theorem ifElse (ha : Numbered (i + 1) w i₁ w₁ a) (hb : Numbered i₁ w₁ i₂ w₂ b) :
    Numbered i w i₂ w₂ (.ifTrue i :: (a ++ .ifFalse i :: (b ++ [.ifEnd i]))) := by
  have own : Numbered i w (i + 1) w [.ifTrue i, .ifFalse i, .ifEnd i] :=
    ⟨by omega, by omega, by simp [Within], by simp⟩
  have hp : (.ifFalse i :: .ifEnd i :: (a ++ b)).Perm (a ++ .ifFalse i :: (b ++ [.ifEnd i])) := by
    refine .trans (.cons _ ?_) List.perm_middle.symm
    rw [← List.append_assoc]
    exact (List.perm_append_singleton _ _).symm
  exact (own.append (ha.append hb)).perm (.cons _ hp)

theorem «while» (h : Numbered i (w + 1) i₁ w₁ a) :
    Numbered i w i₁ w₁ (.whileExp w :: (a ++ [.whileEnd w])) := by
  have own : Numbered i w i (w + 1) [.whileExp w, .whileEnd w] :=
    ⟨by omega, by omega, by simp [Within], by simp⟩
  exact (own.append h).perm (.cons _ (List.perm_append_singleton _ _).symm)

theorem nodup_names (h : Numbered i w i₁ w₁ a) : (a.map name).Nodup :=
  h.nodup.map_on fun l hl k hk => (h.within l hl).eq_of_name_eq (h.within k hk)

end Numbered

end Label

namespace Tree

open Machine (label? labels)

/-- Instructions that only compute. -/
def Computing : Instruction → Prop
  | .push _ _ | .pop _ _ | .arithmetic _ | .call _ _ => True
  | _ => False

theorem computing_stringCode (lexeme : Text) : ∀ i ∈ stringCode lexeme, Computing i := by
  intro i hi
  simp only [stringCode, List.mem_cons, List.mem_flatMap, List.not_mem_nil, or_false] at hi
  obtain rfl | rfl | ⟨c, _, rfl | rfl⟩ := hi <;> trivial

theorem labels_of_computing {code : List Instruction} (h : ∀ i ∈ code, Computing i) :
    labels code = [] := by
  refine List.filterMap_eq_nil_iff.mpr fun i hi => ?_
  have := h i hi
  cases i <;> simp_all [label?, Computing]

section

variable (env : Env)

mutual

theorem Term.computing : (t : Term) → ∀ i ∈ t.code env, Computing i
  | .number _ => by simp [Computing]
  | .string constant => by simpa using computing_stringCode constant.lexeme
  | .literal l _ => by cases l <;> simp [Literal.code, Computing]
  | .var _ => by simp [Env.push, Computing]
  | .element _ _ index => by
    simpa [or_imp, forall_and, Env.push, Computing] using index.computing
  | .call c => by simpa using c.computing
  | .paren _ e => by simpa using e.computing
  | .unary op _ t => by
    cases op <;> simpa [or_imp, forall_and, Unary.code, Computing] using t.computing

theorem Expression.computing : (e : Expression) → ∀ i ∈ e.code env, Computing i
  | .mk first rest => by
    simpa [or_imp, forall_and] using ⟨first.computing, rest.computing⟩

theorem Operations.computing : (o : Operations) → ∀ i ∈ o.code env, Computing i
  | .nil => by simp
  | .cons op _ t rest => by
    cases op <;>
      simpa [or_imp, forall_and, Operator.code, Computing] using ⟨t.computing, rest.computing⟩

theorem Call.computing : (c : Call) → ∀ i ∈ c.code env, Computing i
  | .own _ _ args => by simpa [or_imp, forall_and, Computing] using args.computing
  | .qualified x _ _ _ args => by
    cases h : env.find? x.lexeme <;>
      simpa [h, or_imp, forall_and, Computing] using args.computing

theorem Arguments.computing : (a : Arguments) → ∀ i ∈ a.code env, Computing i
  | .none => by simp
  | .some first rest => by
    simpa [or_imp, forall_and] using ⟨first.computing, rest.computing⟩

theorem MoreArguments.computing : (a : MoreArguments) → ∀ i ∈ a.code env, Computing i
  | .nil => by simp
  | .cons _ e rest => by
    simpa [or_imp, forall_and] using ⟨e.computing, rest.computing⟩

end

@[simp] theorem Expression.labels_code (e : Expression) : labels (e.code env) = [] :=
  labels_of_computing (e.computing env)

@[simp] theorem Call.labels_code (c : Call) : labels (c.code env) = [] :=
  labels_of_computing (c.computing env)

mutual

/-- The labels of a statement have the numbers that it is given. -/
theorem Statement.numbered : (st : Statement) → (i w : Nat) →
    Label.Numbered i w (i + st.ifs) (w + st.whiles) (labels (st.code env i w))
  | .letVar .., _, _ => by simpa [Env.pop, label?] using .nil
  | .letElement .., _, _ => by simpa [Env.push, label?] using .nil
  | .ifThen _ _ _ _ body, i, w => by
    simpa [label?, Nat.add_assoc] using (body.numbered (i + 1) w).ifThen
  | .ifElse _ _ _ _ body _ _ elseBody, i, w => by
    have he := elseBody.numbered (i + 1 + body.ifs) (w + body.whiles)
    simpa [label?, Nat.add_assoc] using (body.numbered (i + 1) w).ifElse he
  | .while _ _ _ _ body, i, w => by
    simpa [label?, Nat.add_assoc] using (body.numbered i (w + 1)).while
  | .do .., _, _ => by simpa [label?] using .nil
  | .return .., _, _ => by simpa [label?] using .nil
  | .returnValue .., _, _ => by simpa [label?] using .nil

theorem Statements.numbered : (sts : Statements) → (i w : Nat) →
    Label.Numbered i w (i + sts.ifs) (w + sts.whiles) (labels (sts.code env i w))
  | .nil, _, _ => .nil
  | .cons first rest, i, w => by
    have hr := rest.numbered (i + first.ifs) (w + first.whiles)
    simpa [Nat.add_assoc] using (first.numbered i w).append hr

end

end

theorem SubroutineKind.labels_prologue (fields : Nat) (kind : SubroutineKind) :
    labels (kind.prologue fields) = [] := by
  cases kind <;> rfl

/-- No two labels of a subroutine have the same name. -/
theorem SubroutineDec.nodup_labels (d : SubroutineDec) (className : Text) (ofClass : List Declaration) :
    ((labels (d.code className ofClass)).map Label.name).Nodup := by
  have hn := d.body.numbered (d.env className ofClass) 0 0
  have hl : labels (d.code className ofClass) = labels (d.body.code (d.env className ofClass) 0 0) := by
    simp [code, label?, SubroutineKind.labels_prologue]
  rw [hl]
  exact hn.nodup_names

end Tree

end Jack
