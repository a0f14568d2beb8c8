import Jack.Proofs.Machine.Run

/-! Runs with the calls that they make. A call is all that can change the heap, the statics and the temporary
segment in code that assigns nothing, so what such code does to them is said by its calls in order. -/

namespace Jack.Machine

/-- A call of a subroutine with its arguments. -/
structure Request where
  callee : Text
  args : List Word

/-- The memory after calls, one after another. -/
def Memory.after (lib : Library) (calls : List Request) (m : Memory) : Memory :=
  calls.foldl (fun m c => (lib c.callee c.args m).2) m

theorem Memory.after_append (lib : Library) (calls more : List Request) (m : Memory) :
    m.after lib (calls ++ more) = (m.after lib calls).after lib more :=
  List.foldl_append

/-- The temporary segment after calls, each of which leaves its own. -/
def Temp.after (log : List (Request × Temp)) (temp : Temp) : Temp :=
  log.foldl (fun _ c => c.2) temp

theorem Temp.after_append (log more : List (Request × Temp)) (temp : Temp) :
    Temp.after (log ++ more) temp = Temp.after more (Temp.after log temp) :=
  List.foldl_append

/-- The call that the next instruction makes. -/
def State.request? (s : State) : Option Request :=
  match s.rest with
  | .call callee (.ofNat n) :: _ => some ⟨callee, (s.stack.take n).reverse⟩
  | _ => none

/-- A run with the calls made in it, in order, each with what it leaves in the temporary segment. -/
inductive Run (lib : Library) (block : List Instruction) : State → List (Request × Temp) → State → Prop
  | refl {s : State} : Run lib block s [] s
  | silent {s s₁ s₂ : State} {log : List (Request × Temp)} (hr : s.request? = none)
      (hs : step lib block s.temp s = some s₁) (h : Run lib block s₁ log s₂) : Run lib block s log s₂
  | call {s s₁ s₂ : State} {r : Request} {temp : Temp} {log : List (Request × Temp)}
      (hr : s.request? = some r) (hs : step lib block temp s = some s₁) (h : Run lib block s₁ log s₂) :
      Run lib block s ((r, temp) :: log) s₂

section

variable {lib : Library} {block : List Instruction} {fr : Frame}

theorem Run.trans {s s₁ s₂ : State} {log more : List (Request × Temp)} (h : Run lib block s log s₁)
    (h' : Run lib block s₁ more s₂) : Run lib block s (log ++ more) s₂ := by
  induction h with
  | refl => exact h'
  | silent hr hs _ ih => exact .silent hr hs (ih h')
  | call hr hs _ ih => exact .call hr hs (ih h')

/-- Only a call leaves something in the temporary segment. -/
theorem step_eq_of_silent {s : State} (h : s.request? = none) (temp temp' : Temp) :
    step lib block temp s = step lib block temp' s := by
  unfold step
  unfold State.request? at h
  split
  · rfl
  · rename_i i rest hs
    rw [hs] at h
    cases i with
    | call callee n =>
      cases n with
      | ofNat n => cases h
      | negSucc n => rfl
    | function name n => cases n <;> rfl
    | _ => rfl

/-- What a call leaves there changes nothing else. -/
theorem step_of_call {s s₁ : State} {r : Request} {temp : Temp} (h : s.request? = some r)
    (hs : step lib block temp s = some s₁) (temp' : Temp) :
    step lib block temp' s = some { s₁ with temp := temp' } := by
  unfold State.request? at h
  split at h
  · rename_i callee n rest hrest
    unfold step at hs ⊢
    rw [hrest] at hs ⊢
    simp only [exec] at hs ⊢
    split at hs
    · rename_i hn
      cases hs
      rw [if_pos hn]
    · cases hs
  · cases h

namespace Run

variable {s s₁ s₂ : State} {log : List (Request × Temp)}

/-- A run comes without calls to its first one. -/
theorem exists_call {r : Request} {temp : Temp} (h : Run lib block s ((r, temp) :: log) s₂) :
    ∃ s₁ s', Run lib block s [] s₁ ∧ s₁.request? = some r ∧ step lib block temp s₁ = some s' ∧
      Run lib block s' log s₂ := by
  generalize hl : (r, temp) :: log = whole at h
  induction h with
  | refl => cases hl
  | silent hr hs _ ih =>
    obtain ⟨s₁, s', h₁, hc, hn, h₂⟩ := ih hl
    exact ⟨s₁, s', .silent hr hs h₁, hc, hn, h₂⟩
  | call hr hs h =>
    cases hl
    exact ⟨_, _, .refl, hr, hs, h⟩

/-- There is one state to which a run comes without calls and from which it calls. -/
theorem eq_of_silent {r r' : Request} {s₁' : State} (h : Run lib block s [] s₁) (hr : s₁.request? = some r)
    (h' : Run lib block s [] s₁') (hr' : s₁'.request? = some r') : s₁ = s₁' := by
  generalize hl : ([] : List (Request × Temp)) = none at h
  induction h with
  | refl =>
    cases h' with
    | refl => rfl
    | silent hn => cases hn.symm.trans hr
  | silent hn hs _ ih =>
    cases h' with
    | refl => cases hn.symm.trans hr'
    | silent _ hs' h' =>
      cases hs.symm.trans hs'
      exact ih hr h' hl
  | call => cases hl

theorem reaches_of_silent {P : State → Prop} (h : Run lib block s [] s₁) (hr : Reaches lib block P s₁) :
    Reaches lib block P s := by
  generalize hl : ([] : List (Request × Temp)) = none at h
  induction h with
  | refl => exact hr
  | silent hn hs _ ih =>
    refine .of_step (fun temp => ?_) (ih hr hl)
    rw [step_eq_of_silent hn temp, hs]
  | call => cases hl

end Run

/-- Runs that make the same calls, whatever these leave in the temporary segment, come to where one may go
on from the end of each. -/
theorem Reaches.of_runs {P : State → Prop} (calls : List Request) {s : State}
    (h : ∀ log, log.map Prod.fst = calls → ∃ t, Run lib block s log t ∧ Reaches lib block P t) :
    Reaches lib block P s := by
  induction calls generalizing s with
  | nil =>
    obtain ⟨t, hr, ht⟩ := h [] rfl
    exact hr.reaches_of_silent ht
  | cons r calls ih =>
    -- All runs come to the same call first, and go on as that call leaves the temporary segment.
    have hcall : ∀ temp log, log.map Prod.fst = calls → ∃ s₁ s' t, Run lib block s [] s₁ ∧
        s₁.request? = some r ∧ Machine.step lib block temp s₁ = some s' ∧ Run lib block s' log t ∧
        Reaches lib block P t := by
      intro temp log hlog
      obtain ⟨t, hr, ht⟩ := h ((r, temp) :: log) (by rw [List.map_cons, hlog])
      obtain ⟨s₁, s', h₁, hc, hs, h₂⟩ := hr.exists_call
      exact ⟨s₁, s', t, h₁, hc, hs, h₂, ht⟩
    have hlog : (calls.map fun c => (c, s.temp)).map Prod.fst = calls := by
      simp [Function.comp_def]
    obtain ⟨s₁, s', _, h₁, hc, hs, _⟩ := hcall s.temp _ hlog
    refine h₁.reaches_of_silent (.step _ (step_of_call hc hs) fun temp => ih fun log hlog => ?_)
    obtain ⟨s₁', s'', t, h₁', hc', hs', h₂, ht⟩ := hcall temp log hlog
    cases h₁.eq_of_silent hc h₁' hc'
    cases (step_of_call hc hs temp).symm.trans hs'
    exact ⟨t, h₂, ht⟩

/-- Code that makes one stack out of another by the given calls. They alone change the memory and the
temporary segment, whatever each leaves in the latter. The second pointer is not kept. -/
structure Performs (lib : Library) (block code : List Instruction) (fr : Frame) (stack : List Word)
    (m : Memory) (calls : List Request) (stack' : List Word) (m' : Memory) : Prop where
  memory : m' = m.after lib calls
  run : ∀ rest that temp log, log.map Prod.fst = calls → ∃ that',
    Run lib block ⟨code ++ rest, stack, fr, that, temp, m⟩ log
      ⟨rest, stack', fr, that', Temp.after log temp, m'⟩

namespace Performs

variable {stack stack₁ stack₂ : List Word} {m m₁ m₂ : Memory} {calls calls₁ calls₂ : List Request}

/-- An instruction that calls nothing and keeps the memory. -/
theorem silent {code : List Instruction}
    (h : ∀ rest that temp, ∃ that', Run lib block ⟨code ++ rest, stack, fr, that, temp, m⟩ []
      ⟨rest, stack₁, fr, that', temp, m⟩) : Performs lib block code fr stack m [] stack₁ m := by
  refine ⟨rfl, fun rest that temp log hlog => ?_⟩
  cases List.map_eq_nil_iff.mp hlog
  exact h rest that temp

theorem nil : Performs lib block [] fr stack m [] stack m :=
  silent fun _ that _ => ⟨that, .refl⟩

theorem append {a b : List Instruction} (ha : Performs lib block a fr stack m calls₁ stack₁ m₁)
    (hb : Performs lib block b fr stack₁ m₁ calls₂ stack₂ m₂) :
    Performs lib block (a ++ b) fr stack m (calls₁ ++ calls₂) stack₂ m₂ := by
  constructor
  · rw [Memory.after_append, ← ha.memory, ← hb.memory]
  · intro rest that temp log hlog
    obtain ⟨log₁, log₂, rfl, h₁, h₂⟩ := List.map_eq_append_iff.mp hlog
    obtain ⟨that₁, hr₁⟩ := ha.run (b ++ rest) that temp log₁ h₁
    obtain ⟨that₂, hr₂⟩ := hb.run rest that₁ (Temp.after log₁ temp) log₂ h₂
    rw [List.append_assoc, Temp.after_append]
    exact ⟨that₂, hr₁.trans hr₂⟩

theorem cons {i : Instruction} {b : List Instruction} (hi : Performs lib block [i] fr stack m [] stack₁ m₁)
    (hb : Performs lib block b fr stack₁ m₁ calls stack₂ m₂) :
    Performs lib block (i :: b) fr stack m calls stack₂ m₂ := hi.append hb

theorem push {segment : Segment} {index : Int} {w : Word}
    (h : ∀ rest that temp, State.read ⟨rest, stack, fr, that, temp, m⟩ segment index = some w) :
    Performs lib block [.push segment index] fr stack m [] (w :: stack) m := by
  refine silent fun rest that temp => ⟨that, .silent rfl ?_ .refl⟩
  simp [step, exec, h rest that temp]

theorem constant (n : Int) :
    Performs lib block [.push .constant n] fr stack m [] (BitVec.ofInt 16 n :: stack) m :=
  push fun _ _ _ => rfl

theorem this : Performs lib block [.push .pointer 0] fr stack m [] (fr.this :: stack) m :=
  push fun _ _ _ => rfl

theorem arithmetic {op : Arithmetic} (h : Machine.arithmetic op stack = some stack₁) :
    Performs lib block [.arithmetic op] fr stack m [] stack₁ m := by
  refine silent fun rest that temp => ⟨that, .silent rfl ?_ .refl⟩
  simp [step, exec, h]

/-- Reads the word at an address. -/
theorem element (a : Word) :
    Performs lib block [.pop .pointer 1, .push .that 0] fr (a :: stack) m [] (m.heap a :: stack) m := by
  refine silent fun rest that temp => ⟨a, .silent rfl rfl (.silent rfl ?_ .refl)⟩
  simp [step, exec, State.read]

theorem call {callee : Text} {n : Nat} {w : Word} (args : List Word) (hn : args.length = n)
    (h : lib callee args m = (w, m₁)) :
    Performs lib block [.call callee n] fr (args.reverse ++ stack) m [⟨callee, args⟩] (w :: stack) m₁ := by
  constructor
  · change m₁ = (lib callee args m).2
    rw [h]
  · intro rest that temp log hlog
    obtain ⟨⟨r, temp'⟩, hlog, hr⟩ := List.map_eq_singleton_iff.mp hlog
    obtain rfl : r = ⟨callee, args⟩ := hr
    subst hlog
    refine ⟨that, .call ?_ ?_ .refl⟩
    · change some (Request.mk callee ((args.reverse ++ stack).take n).reverse) = _
      rw [← hn, ← List.length_reverse, List.take_left, List.reverse_reverse]
    · have hs := exec_call lib block temp' ⟨rest, stack, fr, that, temp, m⟩ callee hn
      rw [h] at hs
      exact hs

/-- A call with a receiver, which lies below the arguments. -/
theorem callWith {callee : Text} {receiver w : Word} {args : List Word} {n : Nat} (hn : args.length = n)
    (h : lib callee (receiver :: args) m = (w, m₁)) :
    Performs lib block [.call callee (1 + n : Nat)] fr (args.reverse ++ receiver :: stack) m
      [⟨callee, receiver :: args⟩] (w :: stack) m₁ := by
  have hlength : (receiver :: args).length = 1 + n := by
    rw [List.length_cons, hn, Nat.add_comm]
  have hc : Performs lib block [.call callee (1 + n : Nat)] fr ((receiver :: args).reverse ++ stack) m
      [⟨callee, receiver :: args⟩] (w :: stack) m₁ :=
    call (receiver :: args) hlength h
  rwa [List.reverse_cons, List.append_assoc] at hc

end Performs

end

end Jack.Machine
