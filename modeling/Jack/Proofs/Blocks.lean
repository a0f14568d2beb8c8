import Jack.Proofs.Acceptance
import Jack.Proofs.Labels

/-! Code falls into blocks, each of which reaches from one `function` to the next. Those of a class are
its subroutines. -/

namespace Jack

namespace Machine

def isFunction : Instruction → Bool
  | .function _ _ => true
  | _ => false

/-- The code in front of the first block, and the blocks. -/
def splitBlocks : List Instruction → List Instruction × List (List Instruction)
  | [] => ([], [])
  | i :: code =>
    let (front, blocks) := splitBlocks code
    if isFunction i then ([], (i :: front) :: blocks) else (i :: front, blocks)

theorem splitBlocks_append {a : List Instruction} (h : ∀ i ∈ a, isFunction i = false)
    (b : List Instruction) :
    splitBlocks (a ++ b) = (a ++ (splitBlocks b).1, (splitBlocks b).2) := by
  induction a with
  | nil => rfl
  | cons i a ih =>
    have hi : isFunction i = false := h i (by simp)
    rw [List.cons_append, splitBlocks, ih fun i hi => h i (by simp [hi])]
    simp [hi]

end Machine

namespace Tree

open Machine (isFunction splitBlocks splitBlocks_append)

theorem isFunction_of_computing {i : Instruction} (h : Computing i) : isFunction i = false := by
  cases i <;> first | rfl | exact h.elim

section

variable (env : Env)

@[simp] theorem Expression.isFunction_code (e : Expression) : ∀ i ∈ e.code env, isFunction i = false :=
  fun i hi => isFunction_of_computing (e.computing env i hi)

@[simp] theorem Call.isFunction_code (c : Call) : ∀ i ∈ c.code env, isFunction i = false :=
  fun i hi => isFunction_of_computing (c.computing env i hi)

mutual

theorem Statement.isFunction_code : (st : Statement) → (i w : Nat) →
    ∀ x ∈ st.code env i w, isFunction x = false
  | .letVar _ _ _ value _, _, _ => by
    simpa [or_imp, forall_and, Env.pop, isFunction] using value.isFunction_code env
  | .letElement _ _ _ index _ value _, _, _ => by
    simpa [or_imp, forall_and, Env.push, isFunction] using
      ⟨index.isFunction_code env, value.isFunction_code env⟩
  | .ifThen _ _ cond _ body, i, w => by
    simpa [or_imp, forall_and, isFunction] using
      ⟨cond.isFunction_code env, body.isFunction_code (i + 1) w⟩
  | .ifElse _ _ cond _ body _ _ elseBody, i, w => by
    simpa [or_imp, forall_and, isFunction] using
      ⟨cond.isFunction_code env, body.isFunction_code (i + 1) w,
        elseBody.isFunction_code (i + 1 + body.ifs) (w + body.whiles)⟩
  | .while _ _ cond _ body, i, w => by
    simpa [or_imp, forall_and, isFunction] using
      ⟨cond.isFunction_code env, body.isFunction_code i (w + 1)⟩
  | .do _ c _, _, _ => by simpa [or_imp, forall_and, isFunction] using c.isFunction_code env
  | .return .., _, _ => by simp [isFunction]
  | .returnValue _ value _, _, _ => by
    simpa [or_imp, forall_and, isFunction] using value.isFunction_code env

theorem Statements.isFunction_code : (sts : Statements) → (i w : Nat) →
    ∀ x ∈ sts.code env i w, isFunction x = false
  | .nil, _, _ => by simp
  | .cons first rest, i, w => by
    simpa [or_imp, forall_and] using
      ⟨first.isFunction_code i w, rest.isFunction_code (i + first.ifs) (w + first.whiles)⟩

end

end

/-- The code of a subroutine is a block. -/
theorem SubroutineDec.splitBlocks_code_append (d : SubroutineDec) (className : Text)
    (ofClass : List Declaration) (rest : List Instruction) (h : (splitBlocks rest).1 = []) :
    splitBlocks (d.code className ofClass ++ rest) =
      ([], d.code className ofClass :: (splitBlocks rest).2) := by
  have hp : ∀ i ∈ d.kind.prologue (ofClass.countP (·.storage = .field)), isFunction i = false := by
    cases d.kind <;> simp [SubroutineKind.prologue, isFunction]
  have hb : ∀ i ∈ d.kind.prologue (ofClass.countP (·.storage = .field)) ++
      d.body.code (d.env className ofClass) 0 0, isFunction i = false := by
    intro i hi
    obtain hi | hi := List.mem_append.mp hi
    · exact hp i hi
    · exact d.body.isFunction_code _ 0 0 i hi
  -- No `function` but the first stands in the code, so the block ends where `rest` begins.
  rw [code, List.cons_append, List.cons_append, splitBlocks, splitBlocks_append hb, h,
    List.append_nil]
  rfl

theorem ClassDec.splitBlocks_code (c : ClassDec) :
    splitBlocks c.code = ([], c.subroutines.map (·.code c.name.lexeme c.declarations)) := by
  unfold ClassDec.code
  induction c.subroutines with
  | nil => rfl
  | cons d ds ih =>
    rw [List.flatMap_cons, d.splitBlocks_code_append _ _ _ (by rw [ih]), ih]
    rfl

end Tree

open Jack.Tree in
/-- What a class compiles to falls into its subroutines. -/
theorem splitBlocks_of_ok {source : Source} {u : Compiled} (h : (compile source).outcome = .ok u)
    {c : ClassDec} (hc : c.tokens = source.beforeEnd) :
    Machine.splitBlocks u.instructions =
      ([], c.subroutines.map (·.code c.name.lexeme c.declarations)) := by
  rw [outcome_of_tokens c hc] at h
  split at h
  · cases h
    exact c.splitBlocks_code
  · cases h

end Jack
