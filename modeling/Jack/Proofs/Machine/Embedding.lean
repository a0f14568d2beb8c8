import Jack.Proofs.Machine.Depth

/-! Code inside a block. Code that jumps only to labels of its own runs in any block around it as it runs
alone, under whatever other labels it stands there. So it has an effect of its own, from which the effect of the
block is put together. -/

namespace Jack

/-- The instruction with another label. -/
def Instruction.relabel (f : Label → Label) : Instruction → Instruction
  | .label l => .label (f l)
  | .goto l => .goto (f l)
  | .ifGoto l => .ifGoto (f l)
  | i => i

theorem Instruction.relabel_id : Instruction.relabel id = id := by
  funext i
  cases i <;> rfl

namespace Machine

/-- The same state before other code. -/
def State.onto (s : State) (rest : List Instruction) : State := { s with rest }

@[simp] theorem State.rest_onto (s : State) (rest : List Instruction) : (s.onto rest).rest = rest := rfl

@[simp] theorem State.onto_onto (s : State) (a b : List Instruction) : (s.onto a).onto b = s.onto b := rfl

@[simp] theorem State.stack_onto (s : State) (rest : List Instruction) : (s.onto rest).stack = s.stack := rfl

/-- Some run comes to a state that satisfies `G`. -/
inductive Comes (lib : Library) (block : List Instruction) (G : State → Prop) : State → Prop
  | here {s : State} (h : G s) : Comes lib block G s
  | step {s s' : State} {temp : Temp} (hs : step lib block temp s = some s') (h : Comes lib block G s') :
      Comes lib block G s

/-- A state at the end of its block, or before a return, that leaves `t` apart from the code. -/
def Exit (returned : Bool) (t s : State) : Prop :=
  (if returned then s.rest.head? = some .ret else s.rest = []) ∧ s.onto [] = t

/-- What code does as a block of its own: from one state it comes to its end, or to a return, with another. -/
def Effect (lib : Library) (code : List Instruction) (s : State) (returned : Bool) (t : State) : Prop :=
  Comes lib code (Exit returned t) (s.onto code)

section

variable {lib : Library} {block code post : List Instruction} {f : Label → Label} {G : State → Prop}
variable {s s' t : State} {temp : Temp} {l : Label}

/-- A step that does not depend on what calls leave is the only one. -/
theorem comes_iff_of_step (hs : ∀ temp, step lib block temp s = some s') (hg : ¬ G s) :
    Comes lib block G s ↔ Comes lib block G s' := by
  constructor
  · intro h
    cases h with
    | here h => exact absurd h hg
    | step hs' h =>
      cases (hs _).symm.trans hs'
      exact h
  · intro h
    exact .step (hs s.temp) h

/-- Where there is no step, a run comes to nothing else. -/
theorem comes_iff_of_stop (hs : ∀ temp, step lib block temp s = none) : Comes lib block G s ↔ G s := by
  constructor
  · intro h
    cases h with
    | here h => exact h
    | step hs' _ => cases (hs _).symm.trans hs'
  · exact .here

theorem comes_label_iff {rest : List Instruction} (hg : ¬ G (s.onto (.label l :: rest))) :
    Comes lib block G (s.onto (.label l :: rest)) ↔ Comes lib block G (s.onto rest) :=
  comes_iff_of_step (fun _ => rfl) hg

theorem comes_goto_iff {rest target : List Instruction} (hl : findLabel l block = some target)
    (hg : ¬ G (s.onto (.goto l :: rest))) :
    Comes lib block G (s.onto (.goto l :: rest)) ↔ Comes lib block G (s.onto target) := by
  refine comes_iff_of_step (fun temp => ?_) hg
  simp only [step, State.onto, exec, hl]
  rfl

theorem comes_not_iff {rest : List Instruction} {v : Word} {stack : List Word} (hs : s.stack = v :: stack)
    (hg : ¬ G (s.onto (.arithmetic .not :: rest))) :
    Comes lib block G (s.onto (.arithmetic .not :: rest)) ↔
      Comes lib block G ({ s with stack := ~~~v :: stack }.onto rest) := by
  refine comes_iff_of_step (fun temp => ?_) hg
  simp only [step, State.onto, exec, hs]
  rfl

/-- A test jumps on every word but zero. -/
theorem comes_ifGoto_iff {rest target : List Instruction} {v : Word} {stack : List Word}
    (hs : s.stack = v :: stack) (hl : findLabel l block = some target)
    (hg : ¬ G (s.onto (.ifGoto l :: rest))) :
    Comes lib block G (s.onto (.ifGoto l :: rest)) ↔
      Comes lib block G ({ s with stack }.onto (if v = 0 then rest else target)) := by
  refine comes_iff_of_step (fun temp => ?_) hg
  simp only [step, State.onto, exec, hs, hl]
  by_cases hv : v = 0
  · simp only [if_pos hv]
  · simp only [if_neg hv]
    rfl

theorem Comes.mono {G' : State → Prop} (h : Comes lib block G s) (hg : ∀ t, G t → G' t) :
    Comes lib block G' s := by
  induction h with
  | here h => exact .here (hg _ h)
  | step hs _ ih => exact .step hs ih

theorem comes_or_iff {G' : State → Prop} :
    Comes lib block (fun t => G t ∨ G' t) s ↔ Comes lib block G s ∨ Comes lib block G' s := by
  constructor
  · intro h
    induction h with
    | here h => exact h.imp .here .here
    | step hs _ ih => exact ih.imp (.step hs) (.step hs)
  · rintro (h | h)
    · exact h.mono fun _ => .inl
    · exact h.mono fun _ => .inr

theorem Comes.exists (h : Comes lib block G s) : ∃ t, G t := by
  induction h with
  | here h => exact ⟨_, h⟩
  | step _ _ ih => exact ih

theorem comes_exit_iff :
    Comes lib block (fun t => t.rest = [] ∧ G (t.onto [])) s ↔ ∃ t, Comes lib block (Exit false t) s ∧ G t := by
  constructor
  · intro h
    induction h with
    | here h => exact ⟨_, .here ⟨h.1, rfl⟩, h.2⟩
    | step hs _ ih =>
      obtain ⟨t, ht, hg⟩ := ih
      exact ⟨t, .step hs ht, hg⟩
  · rintro ⟨t, ht, hg⟩
    exact ht.mono fun u hu => ⟨hu.1, hu.2 ▸ hg⟩

theorem Reaches.comes (h : Reaches lib block G s) : Comes lib block G s := by
  induction h with
  | here h => exact .here h
  | @step s next hs _ ih => exact .step (hs s.temp) (ih s.temp)

theorem rest_ne_nil_of_step (h : step lib block temp s = some s') : s.rest ≠ [] := by
  intro hs
  unfold step at h
  rw [hs] at h
  cases h

/-- Where every run comes to the end of its block with `P`, no run comes to it without. -/
theorem Reaches.exists_and {P : State → Prop} (h : Reaches lib block P s) (hp : ∀ t, P t → t.rest = [])
    (hg : ∀ t, G t → t.rest = []) (hc : Comes lib block G s) : ∃ t, P t ∧ G t := by
  induction h with
  | here h =>
    cases hc with
    | here hc => exact ⟨_, h, hc⟩
    | step hs _ => exact absurd (hp _ h) (rest_ne_nil_of_step hs)
  | @step s next hs _ ih =>
    cases hc with
    | here hc => exact absurd (hg _ hc) (rest_ne_nil_of_step (hs s.temp))
    | @step _ _ temp hs' hc =>
      cases (hs temp).symm.trans hs'
      exact ih temp hc

theorem findLabel_suffix {rest : List Instruction} (h : findLabel l code = some rest) : rest <:+ code := by
  induction code with
  | nil => cases h
  | cons i code ih =>
    unfold findLabel at h
    split at h
    · cases h
      exact List.suffix_refl _
    · exact (ih h).trans (List.suffix_cons i code)

/-- A run of code stays in it. -/
theorem suffix_of_step (h : step lib code temp s = some s') (hs : s.rest <:+ code) : s'.rest <:+ code := by
  unfold step at h
  split at h
  · cases h
  · rename_i i rest hr
    rw [hr] at hs
    rcases (exec_effect h).2 with hn | ⟨l, -, hl⟩
    · rw [hn]
      exact (List.suffix_cons i rest).trans hs
    · exact findLabel_suffix hl

theorem Comes.suffix (h : Comes lib code G s) (hs : s.rest <:+ code) :
    Comes lib code (fun t => t.rest <:+ code ∧ G t) s := by
  induction h with
  | here h => exact .here ⟨hs, h⟩
  | step hstep _ ih => exact .step hstep (ih (suffix_of_step hstep hs))

theorem write_onto (w : Word) (segment : Segment) (index : Int) (rest : List Instruction) :
    (s.onto rest).write w segment index = (s.write w segment index).map (·.onto rest) := by
  unfold State.write
  split
  case h_1 | h_2 =>
    rw [apply_ite (Option.map _)]
    rfl
  all_goals rfl

/-- What an instruction does that is no jump does not depend on the code around it. -/
theorem exec_onto {i : Instruction} (hi : target? i = none) (rest : List Instruction) :
    exec lib block temp (s.onto rest) i = (exec lib code temp s i).map (·.onto rest) := by
  cases i with
  | push segment index =>
    change (s.read segment index).bind _ = ((s.read segment index).bind _).map _
    cases s.read segment index <;> rfl
  | pop segment index =>
    unfold exec
    simp only [State.stack_onto]
    cases s.stack with
    | nil => rfl
    | cons w stack => exact write_onto (s := { s with stack }) w segment index rest
  | arithmetic op =>
    change (Machine.arithmetic op s.stack).bind _ = ((Machine.arithmetic op s.stack).bind _).map _
    cases Machine.arithmetic op s.stack <;> rfl
  | label l => rfl
  | goto l => cases hi
  | ifGoto l => cases hi
  | call callee n =>
    cases n with
    | ofNat n =>
      simp only [exec, State.stack_onto]
      rw [apply_ite (Option.map _)]
      rfl
    | negSucc n => rfl
  | function name n => cases n <;> rfl
  | ret => rfl
  | verbatim line => rfl

/-- Code jumps only to labels of its own, each of which has its own name. -/
structure Closed (code : List Instruction) : Prop where
  mem_labels : ∀ l ∈ targets code, l ∈ labels code
  nodup : ((labels code).map Label.name).Nodup

/-- The jumps of code find in a block, under other labels, what they find in the code, and then `post`. -/
def Embeds (f : Label → Label) (code block post : List Instruction) : Prop :=
  ∀ l ∈ targets code, ∃ rest, findLabel l code = some rest ∧
    findLabel (f l) block = some (rest.map (Instruction.relabel f) ++ post)

theorem exists_of_mem_labels (h : l ∈ labels code) : ∃ a b, code = a ++ .label l :: b := by
  obtain ⟨i, hi, hl⟩ := List.mem_filterMap.mp h
  obtain rfl : i = .label l := by
    cases i <;> simp_all [label?]
  exact List.append_of_mem hi

/-- Closed code stands so in every block around it in which each label has its own name. -/
theorem Closed.embeds (hc : Closed code) (hn : ((labels block).map Label.name).Nodup)
    (hs : code.map (Instruction.relabel f) ++ post <:+ block) : Embeds f code block post := by
  intro l hl
  obtain ⟨a, b, rfl⟩ := exists_of_mem_labels (hc.mem_labels l hl)
  refine ⟨.label l :: b, findLabel_eq_of_suffix (List.suffix_append _ _) hc.nodup, ?_⟩
  have hb : .label (f l) :: (b.map (Instruction.relabel f) ++ post) <:+ block := by
    refine List.IsSuffix.trans ?_ hs
    rw [List.map_append, List.append_assoc]
    exact List.suffix_append _ _
  exact findLabel_eq_of_suffix hb hn

/-- The state of the block at the state of the code. -/
def State.lift (f : Label → Label) (post : List Instruction) (s : State) : State :=
  s.onto (s.rest.map (Instruction.relabel f) ++ post)

theorem State.lift_eq_onto (h : s.rest = []) : s.lift f post = s.onto post := by
  unfold State.lift
  rw [h]
  rfl

/-- Only the label of a jump is another in the block. -/
theorem exec_relabel {i : Instruction} (hi : target? i = none) {rest : List Instruction} (hs : s.rest = rest) :
    exec lib block temp (s.onto (rest.map (Instruction.relabel f) ++ post)) (i.relabel f) =
      (exec lib code temp s i).map (State.lift f post) := by
  have hr : exec lib block temp (s.onto (rest.map (Instruction.relabel f) ++ post)) (i.relabel f) =
      exec lib block temp (s.onto (rest.map (Instruction.relabel f) ++ post)) i := by
    cases i with
    | goto l => cases hi
    | ifGoto l => cases hi
    | _ => rfl
  rw [hr, exec_onto hi]
  refine Option.map_congr fun s' hs' => ?_
  rcases (exec_effect hs').2 with hn | ⟨l, hl, -⟩
  · unfold State.lift
    rw [hn, hs]
  · cases hi.symm.trans hl

namespace Embeds

variable (h : Embeds f code block post)

include h

/-- A step of the block is one of the code. -/
theorem step (hs : s.rest <:+ code) (hne : s.rest ≠ []) :
    Machine.step lib block temp (s.lift f post) = (Machine.step lib code temp s).map (State.lift f post) := by
  cases hr : s.rest with
  | nil => exact absurd hr hne
  | cons i rest =>
    have hi : i ∈ code := by
      rw [hr] at hs
      exact hs.subset List.mem_cons_self
    have hblock : Machine.step lib block temp (s.lift f post) =
        exec lib block temp (s.onto (rest.map (Instruction.relabel f) ++ post)) (i.relabel f) := by
      unfold Machine.step State.lift
      rw [hr]
      rfl
    have hcode : Machine.step lib code temp s = exec lib code temp (s.onto rest) i := by
      unfold Machine.step
      rw [hr]
      rfl
    have hjump : ∀ l, target? i = some l → ∃ target, findLabel l code = some target ∧
        findLabel (f l) block = some (target.map (Instruction.relabel f) ++ post) :=
      fun l hl => h l (List.mem_filterMap.mpr ⟨i, hi, hl⟩)
    rw [hblock, hcode]
    cases i with
    | goto l =>
      obtain ⟨target, hl, hl'⟩ := hjump l rfl
      simp only [Instruction.relabel, exec, hl, hl']
      rfl
    | ifGoto l =>
      obtain ⟨target, hl, hl'⟩ := hjump l rfl
      simp only [Instruction.relabel, exec, hl, hl', State.stack_onto]
      cases s.stack with
      | nil => rfl
      | cons w stack =>
        by_cases hw : w = 0
        · simp only [if_pos hw]
          rfl
        · simp only [if_neg hw]
          rfl
    | _ => exact exec_relabel (s := s.onto rest) rfl rfl

/-- A run of the block from inside the code goes on in it, and behind it when it comes to its end. -/
theorem comes_lift_iff (hs : s.rest <:+ code) :
    Comes lib block G (s.lift f post) ↔
      Comes lib code (fun t => G (t.lift f post) ∨ t.rest = [] ∧ Comes lib block G (t.onto post)) s := by
  constructor
  · intro hr
    generalize hx : s.lift f post = x at hr
    induction hr generalizing s with
    | here hg =>
      subst hx
      exact .here (.inl hg)
    | step hstep hr ih =>
      subst hx
      by_cases hne : s.rest = []
      · refine .here (.inr ⟨hne, ?_⟩)
        rw [← State.lift_eq_onto (f := f) hne]
        exact .step hstep hr
      · rw [h.step hs hne] at hstep
        obtain ⟨s₁, hs₁, rfl⟩ := Option.map_eq_some_iff.mp hstep
        exact .step hs₁ (ih (suffix_of_step hs₁ hs) rfl)
  · intro hr
    induction hr with
    | here hg =>
      rcases hg with hg | ⟨hne, hg⟩
      · exact .here hg
      · rw [State.lift_eq_onto hne]
        exact hg
    | @step s s' temp hstep _ ih =>
      have hne : s.rest ≠ [] := rest_ne_nil_of_step hstep
      have hl : Machine.step lib block temp (s.lift f post) = some (s'.lift f post) := by
        rw [h.step hs hne, hstep]
        rfl
      exact .step hl (ih (suffix_of_step hstep hs))

/-- A run that has nothing to look for in the code comes to its end first. -/
theorem comes_iff (hg : ∀ t : State, t.rest <:+ code → t.rest ≠ [] → ¬ G (t.lift f post)) :
    Comes lib block G (s.onto (code.map (Instruction.relabel f) ++ post)) ↔
      ∃ t, Effect lib code s false t ∧ Comes lib block G (t.onto post) := by
  refine (h.comes_lift_iff (s := s.onto code) (List.suffix_refl _)).trans ?_
  refine Iff.trans ?_ (comes_exit_iff (G := fun t => Comes lib block G (t.onto post)))
  constructor
  · intro hr
    refine (hr.suffix (List.suffix_refl _)).mono fun t ⟨hs, ht⟩ => ?_
    by_cases hne : t.rest = []
    · rcases ht with ht | ht
      · rw [State.lift_eq_onto hne] at ht
        exact ⟨hne, .here ht⟩
      · exact ht
    · rcases ht with ht | ht
      · exact absurd ht (hg t hs hne)
      · exact ht
  · intro hr
    exact hr.mono fun t ht => .inr ht

/-- The effect of code before others: these go on where it ends, and not where it returns. -/
theorem exit_iff {r : Bool} :
    Comes lib block (Exit r s') (s.onto (code.map (Instruction.relabel f) ++ post)) ↔
      (∃ t, Effect lib code s false t ∧ Comes lib block (Exit r s') (t.onto post)) ∨
        r = true ∧ Effect lib code s true s' := by
  have hexit : ∀ t : State, t.rest ≠ [] → (Exit r s' (t.lift f post) ↔ r = true ∧ Exit true s' t) := by
    intro t hne
    obtain ⟨i, rest, hi⟩ := List.exists_cons_of_ne_nil hne
    have hret : i.relabel f = .ret ↔ i = .ret := by
      cases i <;> simp [Instruction.relabel]
    unfold Exit State.lift
    cases r <;> simp [hi, hret]
  refine (h.comes_lift_iff (s := s.onto code) (List.suffix_refl _)).trans ?_
  constructor
  · intro hr
    have hr : Comes lib code (fun t => (t.rest = [] ∧ Comes lib block (Exit r s') (t.onto post)) ∨
        (r = true ∧ Exit true s' t)) (s.onto code) := by
      refine hr.mono fun t ht => ?_
      by_cases hne : t.rest = []
      · rcases ht with ht | ht
        · rw [State.lift_eq_onto hne] at ht
          exact .inl ⟨hne, .here ht⟩
        · exact .inl ht
      · rcases ht with ht | ht
        · exact .inr ((hexit t hne).mp ht)
        · exact absurd ht.1 hne
    rcases comes_or_iff.mp hr with hr | hr
    · exact .inl (comes_exit_iff.mp hr)
    · obtain ⟨t, hreturned, -⟩ := hr.exists
      exact .inr ⟨hreturned, hr.mono fun _ ht => ht.2⟩
  · rintro (⟨t, ht, hk⟩ | ⟨hreturned, ht⟩)
    · refine ht.mono fun u hu => .inr ⟨hu.1, ?_⟩
      rw [← hu.2] at hk
      exact hk
    · refine ht.mono fun u hu => .inl ?_
      have hne : u.rest ≠ [] := by
        intro hne
        simp [Exit, hne] at hu
      exact (hexit u hne).mpr ⟨hreturned, hu⟩

end Embeds

theorem Effect.rest_eq {r : Bool} (h : Effect lib code s r t) : t.rest = [] := by
  obtain ⟨u, -, hu⟩ := h.exists
  rw [← hu]
  rfl

theorem exit_nil_iff {r : Bool} : Comes lib block (Exit r s') (s.onto []) ↔ r = false ∧ s.onto [] = s' := by
  rw [comes_iff_of_stop fun _ => rfl]
  unfold Exit
  cases r <;> simp

/-- Where nothing happens behind code, its effect is all. -/
theorem effect_iff_of_end {r : Bool}
    (hend : ∀ t : State, Comes lib block (Exit r s') (t.onto post) ↔ r = false ∧ t.onto [] = s') :
    (∃ t, Effect lib code s false t ∧ Comes lib block (Exit r s') (t.onto post)) ∨
      r = true ∧ Effect lib code s true s' ↔ Effect lib code s r s' := by
  constructor
  · rintro (⟨t, ht, hk⟩ | ⟨rfl, ht⟩)
    · obtain ⟨rfl, hs'⟩ := (hend t).mp hk
      have heq : t = s' := by
        rw [← hs', ← ht.rest_eq]
        rfl
      exact heq ▸ ht
    · exact ht
  · intro ht
    cases r with
    | true => exact .inr ⟨rfl, ht⟩
    | false =>
      refine .inl ⟨s', ht, (hend s').mpr ⟨rfl, ?_⟩⟩
      rw [← ht.rest_eq]
      rfl

/-- Where code stands at the end of a block, the block does from there what the code does. -/
theorem Embeds.effect_iff (h : Embeds f code block []) {r : Bool} :
    Comes lib block (Exit r s') (s.onto (code.map (Instruction.relabel f))) ↔ Effect lib code s r s' := by
  have hr : Comes lib block (Exit r s') (s.onto (code.map (Instruction.relabel f) ++ [])) ↔ _ := h.exit_iff
  rw [List.append_nil] at hr
  exact hr.trans (effect_iff_of_end fun _ => exit_nil_iff)

namespace Closed

variable {r : Bool}

/-- Other labels make no difference. -/
theorem effect_relabel_iff (hc : Closed code)
    (hn : ((labels (code.map (Instruction.relabel f))).map Label.name).Nodup) :
    Effect lib (code.map (Instruction.relabel f)) s r s' ↔ Effect lib code s r s' := by
  have hs : code.map (Instruction.relabel f) ++ [] <:+ code.map (Instruction.relabel f) := by
    simp only [List.append_nil, List.suffix_refl]
  exact (hc.embeds hn hs).effect_iff

/-- In a block, what follows code goes on where it ends, and not where it returns. -/
theorem exit_iff (hc : Closed code) (hn : ((labels block).map Label.name).Nodup) (hs : code ++ post <:+ block) :
    Comes lib block (Exit r s') (s.onto (code ++ post)) ↔
      (∃ t, Effect lib code s false t ∧ Comes lib block (Exit r s') (t.onto post)) ∨
        r = true ∧ Effect lib code s true s' := by
  have he : Embeds id code block post := by
    apply hc.embeds hn
    rwa [Instruction.relabel_id, List.map_id]
  have hr : Comes lib block (Exit r s') (s.onto (code.map (Instruction.relabel id) ++ post)) ↔ _ := he.exit_iff
  rwa [Instruction.relabel_id, List.map_id] at hr

theorem effect_append_iff {a b : List Instruction} (ha : Closed a) (hb : Closed b)
    (hn : ((labels (a ++ b)).map Label.name).Nodup) :
    Effect lib (a ++ b) s r s' ↔
      (∃ t, Effect lib a s false t ∧ Effect lib b t r s') ∨ r = true ∧ Effect lib a s true s' := by
  have hend : ∀ t, Comes lib (a ++ b) (Exit r s') (t.onto b) ↔ Effect lib b t r s' := by
    intro t
    have hs : b.map (Instruction.relabel id) ++ [] <:+ a ++ b := by
      rw [Instruction.relabel_id, List.map_id, List.append_nil]
      exact List.suffix_append a b
    have hr : Comes lib (a ++ b) (Exit r s') (t.onto (b.map (Instruction.relabel id))) ↔ _ :=
      (hb.embeds hn hs).effect_iff
    rwa [Instruction.relabel_id, List.map_id] at hr
  have hr : Comes lib (a ++ b) (Exit r s') (s.onto (a ++ b)) ↔ _ := ha.exit_iff hn (List.suffix_refl _)
  simp only [hend] at hr
  exact hr

end Closed

end

end Machine

end Jack
