import Jack.Proofs.Machine.Embedding
import Jack.Proofs.StackDiscipline

/-! The effect of a conditional and of a loop, from that of their conditions and bodies. A conditional enters
its body on every word but zero, a loop only on the word whose bits are all set. -/

namespace Jack.Machine

open Jack.Tree (Computing labels_of_computing targets_of_computing)

/-- The code of a conditional. -/
def branch (yes no : Label) (cond body : List Instruction) : List Instruction :=
  cond ++ .ifGoto yes :: .goto no :: .label yes :: (body ++ [.label no])

/-- The code of a loop. -/
def loop (again out : Label) (cond body : List Instruction) : List Instruction :=
  .label again :: (cond ++ .arithmetic .not :: .ifGoto out :: (body ++ [.goto again, .label out]))

/-- A run comes to the body of a conditional. -/
def EntersBranch (lib : Library) (yes no : Label) (cond body : List Instruction) (s : State) : Prop :=
  Comes lib (branch yes no cond body) (·.rest = .label yes :: (body ++ [.label no]))
    (s.onto (branch yes no cond body))

/-- A run comes to the body of a loop. -/
def EntersLoop (lib : Library) (again out : Label) (cond body : List Instruction) (s : State) : Prop :=
  Comes lib (loop again out cond body) (·.rest = body ++ [.goto again, .label out])
    (s.onto (loop again out cond body))

section

variable {lib : Library} {block cond body post rest : List Instruction} {G : State → Prop}
  {s s' : State} {r : Bool}

theorem not_exit_of_ne_ret {i : Instruction} (h : i ≠ .ret) : ¬ Exit r s' (s.onto (i :: rest)) := by
  unfold Exit
  cases r <;> simp [h]

theorem comes_computing_iff (hc : ∀ i ∈ cond, Computing i)
    (hg : ∀ (t : State) i rest, Computing i → post.length ≤ rest.length → ¬ G (t.onto (i :: rest))) :
    Comes lib block G (s.onto (cond ++ post)) ↔
      ∃ t, Effect lib cond s false t ∧ Comes lib block G (t.onto post) := by
  have he : Embeds id cond block post := by
    intro l hl
    rw [targets_of_computing hc] at hl
    cases hl
  have hno : ∀ t : State, t.rest <:+ cond → t.rest ≠ [] → ¬ G (t.lift id post) := by
    intro t ht hne
    obtain ⟨i, rest, hi⟩ := List.exists_cons_of_ne_nil hne
    rw [hi] at ht
    have hl : t.lift id post = t.onto (i :: (rest ++ post)) := by
      unfold State.lift
      rw [hi, Instruction.relabel_id, List.map_id]
      rfl
    rw [hl]
    exact hg t i _ (hc i (ht.subset List.mem_cons_self)) (by simp)
  have hr : Comes lib block G (s.onto (cond.map (Instruction.relabel id) ++ post)) ↔ _ := he.comes_iff hno
  rwa [Instruction.relabel_id, List.map_id] at hr

theorem rest_ne_of_length {target : List Instruction} (h : rest.length ≠ target.length) :
    ¬ (s.onto rest).rest = target :=
  fun he => h (congrArg List.length he)

/-- Whether a run comes to code behind a condition is settled where the condition ends. -/
theorem comes_rest_iff {target : List Instruction} {q : Prop} (hc : ∀ i ∈ cond, Computing i)
    (hl : target.length ≤ post.length)
    (hq : ∀ t, Effect lib cond s false t → (Comes lib block (·.rest = target) (t.onto post) ↔ q)) :
    Comes lib block (·.rest = target) (s.onto (cond ++ post)) ↔ (∃ t, Effect lib cond s false t) ∧ q := by
  have hcond : ∀ (t : State) i rest, Computing i → post.length ≤ rest.length →
      ¬ (t.onto (i :: rest)).rest = target := by
    intro t i rest _ hr
    apply rest_ne_of_length
    rw [List.length_cons]
    omega
  rw [comes_computing_iff hc hcond, ← exists_and_right]
  exact exists_congr fun t => and_congr_right (hq t)

/-- A condition is evaluated before anything is left. -/
theorem exit_computing_iff (hc : ∀ i ∈ cond, Computing i) :
    Comes lib block (Exit r s') (s.onto (cond ++ post)) ↔
      ∃ t, Effect lib cond s false t ∧ Comes lib block (Exit r s') (t.onto post) := by
  refine comes_computing_iff hc fun t i rest hi _ => not_exit_of_ne_ret ?_
  rintro rfl
  cases hi

variable {yes no again out : Label} {v : Word}

/-- The condition leaves the word `v` on the stack. -/
def Yields (lib : Library) (cond : List Instruction) (s : State) (v : Word) : Prop :=
  ∀ t, Effect lib cond s false t → t.stack = v :: s.stack

section

variable (hc : ∀ i ∈ cond, Computing i) (hb : Closed body) (hv : Yields lib cond s v)

theorem findLabel_yes (hn : ((labels (branch yes no cond body)).map Label.name).Nodup) :
    findLabel yes (branch yes no cond body) = some (.label yes :: (body ++ [.label no])) := by
  refine findLabel_eq_of_suffix ?_ hn
  exact ⟨cond ++ [.ifGoto yes, .goto no], by simp [branch]⟩

theorem findLabel_no (hn : ((labels (branch yes no cond body)).map Label.name).Nodup) :
    findLabel no (branch yes no cond body) = some [.label no] := by
  refine findLabel_eq_of_suffix ?_ hn
  exact ⟨cond ++ .ifGoto yes :: .goto no :: .label yes :: body, by simp [branch]⟩

include hc hb hv in
/-- A conditional does its body unless its condition gives zero. -/
theorem effect_branch_iff (hn : ((labels (branch yes no cond body)).map Label.name).Nodup) :
    Effect lib (branch yes no cond body) s r s' ↔ ∃ t, Effect lib cond s false t ∧
      if v = 0 then r = false ∧ { t with stack := s.stack } = s'
      else Effect lib body { t with stack := s.stack } r s' := by
  have hend : ∀ t : State, Comes lib (branch yes no cond body) (Exit r s') (t.onto [.label no]) ↔
      r = false ∧ t.onto [] = s' := by
    intro t
    rw [comes_label_iff (not_exit_of_ne_ret nofun), exit_nil_iff]
  have hbody : body ++ [.label no] <:+ branch yes no cond body :=
    ⟨cond ++ [.ifGoto yes, .goto no, .label yes], by simp [branch]⟩
  refine (exit_computing_iff hc).trans (exists_congr fun t => and_congr_right fun ht => ?_)
  rw [comes_ifGoto_iff (hv t ht) (findLabel_yes hn) (not_exit_of_ne_ret nofun)]
  have hrest : { t with stack := s.stack } = { t with stack := s.stack }.onto [] := by
    rw [← ht.rest_eq]
    rfl
  by_cases h0 : v = 0
  · rw [if_pos h0, if_pos h0, comes_goto_iff (findLabel_no hn) (not_exit_of_ne_ret nofun), hend, ← hrest]
  · rw [if_neg h0, if_neg h0, comes_label_iff (not_exit_of_ne_ret nofun), hb.exit_iff hn hbody]
    exact effect_iff_of_end hend

include hc hv in
/-- A conditional enters its body on every word but zero. -/
theorem entersBranch_iff (hn : ((labels (branch yes no cond body)).map Label.name).Nodup) :
    EntersBranch lib yes no cond body s ↔ (∃ t, Effect lib cond s false t) ∧ v ≠ 0 := by
  refine comes_rest_iff hc (by simp) fun t ht => ?_
  rw [comes_ifGoto_iff (hv t ht) (findLabel_yes hn) (rest_ne_of_length (by simp +arith))]
  by_cases h0 : v = 0
  · rw [if_pos h0, comes_goto_iff (findLabel_no hn) (rest_ne_of_length (by simp)),
      comes_label_iff (rest_ne_of_length (by simp)), comes_iff_of_stop fun _ => rfl]
    simp [h0]
  · rw [if_neg h0]
    exact ⟨fun _ => h0, fun _ => .here rfl⟩

theorem findLabel_again (hn : ((labels (loop again out cond body)).map Label.name).Nodup) :
    findLabel again (loop again out cond body) = some (loop again out cond body) :=
  findLabel_eq_of_suffix (List.suffix_refl _) hn

theorem findLabel_out (hn : ((labels (loop again out cond body)).map Label.name).Nodup) :
    findLabel out (loop again out cond body) = some [.label out] := by
  refine findLabel_eq_of_suffix ?_ hn
  exact ⟨.label again :: (cond ++ .arithmetic .not :: .ifGoto out :: (body ++ [.goto again])), by simp [loop]⟩

/-- A loop negates its condition bit by bit, which gives zero for one word only. -/
theorem not_eq_zero_iff (w : Word) : ~~~w = 0 ↔ w = -1 := by
  rw [BitVec.not_eq_comm]
  exact Iff.rfl

/-- Only on 0 and -1 do a conditional and a loop make the same choice. -/
theorem ne_zero_iff_eq_neg_one_iff (w : Word) : (w ≠ 0 ↔ w = -1) ↔ w = 0 ∨ w = -1 := by
  constructor
  · intro h
    by_cases h0 : w = 0
    · exact .inl h0
    · exact .inr (h.mp h0)
  · rintro (rfl | rfl)
    · decide
    · decide

include hc hb hv in
/-- A loop whose condition gives the word with all bits set does its body and starts again, unless the body
returns. -/
theorem effect_loop_iff (hn : ((labels (loop again out cond body)).map Label.name).Nodup) :
    Effect lib (loop again out cond body) s r s' ↔ ∃ t, Effect lib cond s false t ∧
      if v = -1 then
        (∃ u, Effect lib body { t with stack := s.stack } false u ∧
            Effect lib (loop again out cond body) u r s') ∨
          r = true ∧ Effect lib body { t with stack := s.stack } true s'
      else r = false ∧ { t with stack := s.stack } = s' := by
  have hagain : ∀ t : State,
      Comes lib (loop again out cond body) (Exit r s') (t.onto [.goto again, .label out]) ↔
        Effect lib (loop again out cond body) t r s' :=
    fun t => comes_goto_iff (findLabel_again hn) (not_exit_of_ne_ret nofun)
  have hbody : body ++ [.goto again, .label out] <:+ loop again out cond body :=
    ⟨.label again :: (cond ++ [.arithmetic .not, .ifGoto out]), by simp [loop]⟩
  refine (comes_label_iff (not_exit_of_ne_ret nofun)).trans ?_
  refine (exit_computing_iff hc).trans (exists_congr fun t => and_congr_right fun ht => ?_)
  rw [comes_not_iff (hv t ht) (not_exit_of_ne_ret nofun),
    comes_ifGoto_iff rfl (findLabel_out hn) (not_exit_of_ne_ret nofun)]
  simp only [not_eq_zero_iff]
  by_cases h1 : v = -1
  · rw [if_pos h1, if_pos h1, hb.exit_iff hn hbody]
    simp only [hagain]
  · rw [if_neg h1, if_neg h1, comes_label_iff (not_exit_of_ne_ret nofun), exit_nil_iff, ← ht.rest_eq]
    rfl

include hc hv in
/-- A loop enters its body only on the word with all bits set. -/
theorem entersLoop_iff (hn : ((labels (loop again out cond body)).map Label.name).Nodup) :
    EntersLoop lib again out cond body s ↔ (∃ t, Effect lib cond s false t) ∧ v = -1 := by
  refine (comes_label_iff (rest_ne_of_length (by simp +arith))).trans ?_
  refine comes_rest_iff hc (by simp +arith) fun t ht => ?_
  rw [comes_not_iff (hv t ht) (rest_ne_of_length (by simp)),
    comes_ifGoto_iff rfl (findLabel_out hn) (rest_ne_of_length (by simp))]
  simp only [not_eq_zero_iff]
  by_cases h1 : v = -1
  · rw [if_pos h1]
    exact ⟨fun _ => h1, fun _ => .here rfl⟩
  · rw [if_neg h1, comes_label_iff (rest_ne_of_length (by simp)), comes_iff_of_stop fun _ => rfl,
      iff_false_right h1]
    simp

end

end

end Jack.Machine
