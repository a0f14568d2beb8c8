import Jack.Proofs.Machine.Run

/-! How deep the stack of a subroutine is at each of its instructions. -/

namespace Jack.Machine

/-- The number of words that an instruction finds on the stack. -/
def operands : Instruction → Int
  | .pop _ _ | .ifGoto _ | .ret | .arithmetic .neg | .arithmetic .not => 1
  | .arithmetic _ => 2
  | .call _ n => n
  | _ => 0

/-- What an instruction adds to the depth of the stack. -/
def effect : Instruction → Int
  | .push _ _ => 1
  | .pop _ _ | .ifGoto _ | .ret => -1
  | .arithmetic .neg | .arithmetic .not => 0
  | .arithmetic _ => -1
  | .call _ n => 1 - n
  | _ => 0

/-- The label that an instruction may jump to. -/
def target? : Instruction → Option Label
  | .goto l | .ifGoto l => some l
  | _ => none

theorem stack_write {s s' : State} {w : Word} {segment : Segment} {index : Int}
    (h : s.write w segment index = some s') : s'.stack = s.stack ∧ s'.rest = s.rest := by
  unfold State.write at h
  split at h
  case h_1 | h_2 =>
    split at h
    · cases h
      exact ⟨rfl, rfl⟩
    · cases h
  case h_9 => cases h
  all_goals
    cases h
    exact ⟨rfl, rfl⟩

theorem length_arithmetic {op : Arithmetic} {stack stack' : List Word}
    (h : arithmetic op stack = some stack') :
    operands (.arithmetic op) ≤ stack.length ∧
      (stack'.length : Int) = stack.length + effect (.arithmetic op) := by
  unfold arithmetic at h
  split at h
  case h_10 => cases h
  all_goals
    cases h
    simp only [operands, effect, List.length_cons]
    omega

/-- An instruction is executed only if it finds its operands, and it changes the depth by its effect.
Behind it comes the next one or the label that it jumps to. -/
theorem exec_effect {lib : Library} {block : List Instruction} {temp : Temp} {s s' : State}
    {i : Instruction} (h : exec lib block temp s i = some s') :
    (operands i ≤ s.stack.length ∧ (s'.stack.length : Int) = s.stack.length + effect i) ∧
      (s'.rest = s.rest ∨ ∃ l, target? i = some l ∧ findLabel l block = some s'.rest) := by
  unfold exec at h
  split at h
  case h_1 =>
    obtain ⟨w, _, h⟩ := Option.bind_eq_some_iff.mp h
    cases h
    simp [operands, effect]
  case h_2 =>
    split at h
    case h_1 hs =>
      obtain ⟨hstack, hrest⟩ := stack_write h
      refine ⟨?_, .inl hrest⟩
      rw [hstack, hs]
      simp only [operands, effect, List.length_cons]
      omega
    case h_2 => cases h
  case h_3 =>
    obtain ⟨stack, ha, h⟩ := Option.bind_eq_some_iff.mp h
    cases h
    exact ⟨length_arithmetic ha, .inl rfl⟩
  case h_4 =>
    cases h
    simp [operands, effect]
  case h_5 l =>
    obtain ⟨rest, hl, h⟩ := Option.bind_eq_some_iff.mp h
    cases h
    exact ⟨by simp [operands, effect], .inr ⟨l, rfl, hl⟩⟩
  case h_6 l =>
    split at h
    case h_1 w stack hs =>
      have hd : operands (.ifGoto l) ≤ s.stack.length ∧
          (stack.length : Int) = s.stack.length + effect (.ifGoto l) := by
        simp only [operands, effect, hs, List.length_cons]
        omega
      split at h
      · cases h
        exact ⟨hd, .inl rfl⟩
      · obtain ⟨rest, hl, h⟩ := Option.bind_eq_some_iff.mp h
        cases h
        exact ⟨hd, .inr ⟨l, rfl, hl⟩⟩
    case h_2 => cases h
  case h_7 n =>
    split at h
    · cases h
      refine ⟨?_, .inl rfl⟩
      simp only [operands, effect, List.length_cons, List.length_drop, Int.ofNat_eq_natCast]
      omega
    · cases h
  case h_8 =>
    cases h
    simp [operands, effect]
  case h_9 => cases h

/-- The depth at which an instruction has to stand. Jumps, and what they come to, leave nothing on the
stack. -/
def level : Instruction → Option Nat
  | .label _ | .goto _ => some 0
  | .ifGoto _ | .ret => some 1
  | _ => none

/-- An instruction takes the stack from one depth to another. -/
structure Fits (i : Instruction) (d d' : Nat) : Prop where
  operands : operands i ≤ d
  effect : (d' : Int) = d + effect i
  level : ∀ n ∈ level i, d = n

/-- Code takes the stack from one depth to another, if it is run from its start to its end. -/
inductive Balanced : List Instruction → Nat → Nat → Prop
  | nil {d} : Balanced [] d d
  | cons {i code d d₁ d₂} (hi : Fits i d d₁) (hc : Balanced code d₁ d₂) : Balanced (i :: code) d d₂

namespace Fits

variable {d : Nat}

theorem push {segment : Segment} {index : Int} : Fits (.push segment index) d (d + 1) :=
  ⟨by simp [Machine.operands], by simp [Machine.effect], by simp [Machine.level]⟩

theorem pop {segment : Segment} {index : Int} : Fits (.pop segment index) (d + 1) d :=
  ⟨by simp only [Machine.operands]; omega, by simp only [Machine.effect]; omega,
    by simp [Machine.level]⟩

theorem call {callee : Text} {n : Nat} : Fits (.call callee n) (d + n) (d + 1) :=
  ⟨by simp only [Machine.operands]; omega, by simp only [Machine.effect]; omega,
    by simp [Machine.level]⟩

/-- An operation takes its operands and leaves one word. -/
theorem arithmetic {op : Arithmetic} :
    Fits (.arithmetic op) (d + (Machine.operands (.arithmetic op)).toNat) (d + 1) := by
  refine ⟨?_, ?_, by simp [Machine.level]⟩ <;>
    cases op <;> simp only [Machine.operands, Machine.effect] <;> omega

theorem label {l : Label} : Fits (.label l) 0 0 := ⟨Int.le_refl _, rfl, by simp [Machine.level]⟩

theorem goto {l : Label} : Fits (.goto l) 0 0 := ⟨Int.le_refl _, rfl, by simp [Machine.level]⟩

theorem ifGoto {l : Label} : Fits (.ifGoto l) 1 0 := ⟨Int.le_refl _, rfl, by simp [Machine.level]⟩

theorem ret : Fits .ret 1 0 := ⟨Int.le_refl _, rfl, by simp [Machine.level]⟩

theorem function {f : Text} {n : Int} : Fits (.function f n) 0 0 :=
  ⟨Int.le_refl _, rfl, by simp [Machine.level]⟩

end Fits

namespace Balanced

variable {a b : List Instruction} {d d₁ d₂ : Nat}

theorem append (ha : Balanced a d d₁) (hb : Balanced b d₁ d₂) : Balanced (a ++ b) d d₂ := by
  induction ha with
  | nil => exact hb
  | cons hi _ ih => exact .cons hi (ih hb)

theorem of_append (h : Balanced (a ++ b) d d₂) : ∃ d₁, Balanced a d d₁ ∧ Balanced b d₁ d₂ := by
  induction a generalizing d with
  | nil => exact ⟨d, .nil, h⟩
  | cons i a ih =>
    cases h with
    | cons hi hc =>
      obtain ⟨d₁, ha, hb⟩ := ih hc
      exact ⟨d₁, .cons hi ha, hb⟩

end Balanced

/-- What code adds to the depth of the stack. -/
def totalEffect : List Instruction → Int
  | [] => 0
  | i :: code => effect i + totalEffect code

theorem Balanced.totalEffect {code : List Instruction} {d d' : Nat} (h : Balanced code d d') :
    (d' : Int) = d + totalEffect code := by
  induction h with
  | nil => simp [Machine.totalEffect]
  | cons hi _ ih =>
    have := hi.effect
    simp only [Machine.totalEffect]
    omega

/-- The depth behind code that starts with an empty stack. -/
def depth (code : List Instruction) : Nat := (totalEffect code).toNat

theorem Balanced.depth_eq {code : List Instruction} {d : Nat} (h : Balanced code 0 d) :
    depth code = d := by
  have := h.totalEffect
  unfold depth
  omega

/-- The depth at a position of balanced code fits the instruction there. -/
theorem Balanced.fits {block : List Instruction} {d p : Nat} {i : Instruction} (h : Balanced block 0 d)
    (hp : block[p]? = some i) : Fits i (depth (block.take p)) (depth (block.take (p + 1))) := by
  obtain ⟨hlt, rfl⟩ := List.getElem?_eq_some_iff.mp hp
  -- The depths on both sides of the instruction are those of the code in front of them.
  have hb : block.take p ++ block[p] :: block.drop (p + 1) = block := by simp
  rw [← hb] at h
  obtain ⟨d₁, ha, hc⟩ := h.of_append
  cases hc with
  | cons hi _ =>
    have ht := ha.append (.cons hi .nil)
    rw [List.take_append_getElem hlt] at ht
    rwa [ha.depth_eq, ht.depth_eq]

/-- The labels that code jumps to, in order. -/
def targets (code : List Instruction) : List Label := code.filterMap target?

@[simp] theorem targets_append (a b : List Instruction) : targets (a ++ b) = targets a ++ targets b :=
  List.filterMap_append

@[simp] theorem targets_nil : targets [] = [] := rfl

@[simp] theorem targets_cons (i : Instruction) (code : List Instruction) :
    targets (i :: code) = (target? i).toList ++ targets code := by
  cases h : target? i <;> simp [targets, h]

/-- Code in a block, and where it starts. -/
structure Placement where
  start : Nat
  code : List Instruction

/-- The code stands in the block where it is said to, and with nothing on the stack at its start and
at its end. -/
def Placement.Level (block : List Instruction) (s : Placement) : Prop :=
  ∃ a b, block = a ++ s.code ++ b ∧ a.length = s.start ∧ Balanced a 0 0 ∧ Balanced s.code 0 0

/-- The stack has one depth at each position of a block. It is empty at the start, at the end, at
labels, and where the code of a statement starts and ends; an instruction finds its operands and changes
the depth by its effect; a jump comes to its label with the depth that it leaves; and a return has one
word. -/
structure StackDiscipline (block : List Instruction) (statements : List Placement)
    (depth : Nat → Nat) : Prop where
  start : depth 0 = 0
  stop : depth block.length = 0
  operands : ∀ p i, block[p]? = some i → operands i ≤ depth p
  effect : ∀ p i, block[p]? = some i → (depth (p + 1) : Int) = depth p + effect i
  jump : ∀ p i l, block[p]? = some i → target? i = some l →
    ∃ q, findLabel l block = some (block.drop q) ∧ depth q = depth (p + 1)
  label : ∀ p l, block[p]? = some (.label l) → depth p = 0
  ret : ∀ p, block[p]? = some .ret → depth p = 1
  statement : ∀ s ∈ statements, s.code <+: block.drop s.start ∧ depth s.start = 0 ∧
    depth (s.start + s.code.length) = 0

/-- A state that some run from another comes to. -/
inductive Steps (lib : Library) (block : List Instruction) : State → State → Prop
  | refl {s} : Steps lib block s s
  | tail {s s₁ s₂ temp} (h : Steps lib block s s₁) (hs : step lib block temp s₁ = some s₂) :
      Steps lib block s s₂

namespace StackDiscipline

variable {lib : Library} {block : List Instruction} {statements : List Placement} {depth : Nat → Nat}
variable {s s' : State}

theorem step (h : StackDiscipline block statements depth) {temp : Temp} {p n : Nat}
    (hs : Machine.step lib block temp s = some s') (hr : s.rest = block.drop p)
    (hl : s.stack.length = n + depth p) :
    ∃ q, s'.rest = block.drop q ∧ s'.stack.length = n + depth q := by
  unfold Machine.step at hs
  split at hs
  · cases hs
  · next i rest hi =>
    rw [hr] at hi
    have hp : block[p]? = some i := by
      rw [← List.head?_drop, hi]
      rfl
    have hd : rest = block.drop (p + 1) := by
      rw [← List.tail_drop, hi]
      rfl
    have he := h.effect p i hp
    obtain ⟨⟨_, hlen⟩, ht | ⟨l, hi, ht⟩⟩ := exec_effect hs
    · exact ⟨p + 1, ht.trans hd, by simp only at hlen; omega⟩
    · obtain ⟨q, hq, hdq⟩ := h.jump p i l hp hi
      exact ⟨q, Option.some.inj (ht.symm.trans hq), by simp only at hlen; omega⟩

/-- Wherever a run of a block is, the stack has grown by the depth at that position. -/
theorem steps (h : StackDiscipline block statements depth) (hs : Steps lib block s s')
    (hr : s.rest = block) :
    ∃ p, s'.rest = block.drop p ∧ s'.stack.length = s.stack.length + depth p := by
  induction hs with
  | refl => exact ⟨0, hr, by rw [h.start]; rfl⟩
  | tail _ hs ih =>
    obtain ⟨p, hr, hl⟩ := ih
    exact h.step hs hr hl

end StackDiscipline

section

variable {block : List Instruction} (hb : Balanced block 0 0)

include hb

theorem Balanced.depth_label {p : Nat} {l : Label} (hp : block[p]? = some (.label l)) :
    depth (block.take p) = 0 :=
  (hb.fits hp).level 0 rfl

theorem Balanced.depth_jump {p : Nat} {i : Instruction} {l : Label} (hp : block[p]? = some i)
    (hl : target? i = some l) : depth (block.take (p + 1)) = 0 := by
  have hf := hb.fits hp
  have he := hf.effect
  cases i with
  | goto =>
    have := hf.level 0 rfl
    simp only [effect] at he
    omega
  | ifGoto =>
    have := hf.level 1 rfl
    simp only [effect] at he
    omega
  | _ => cases hl

/-- A label that code jumps to is in it, at no depth. -/
theorem Balanced.exists_target (ht : ∀ l ∈ targets block, l ∈ labels block)
    (hn : ((labels block).map Label.name).Nodup) {p : Nat} {i : Instruction} {l : Label}
    (hp : block[p]? = some i) (hl : target? i = some l) :
    ∃ q, findLabel l block = some (block.drop q) ∧ depth (block.take q) = 0 := by
  have hm : l ∈ labels block := ht l (List.mem_filterMap.mpr ⟨i, List.mem_of_getElem? hp, hl⟩)
  obtain ⟨j, hj, hjl⟩ := List.mem_filterMap.mp hm
  obtain rfl : j = .label l := by
    cases j <;> simp_all [label?]
  obtain ⟨a, b, rfl⟩ := List.append_of_mem hj
  refine ⟨a.length, ?_, hb.depth_label (l := l) (by simp)⟩
  rw [List.drop_left]
  exact findLabel_eq_of_suffix (List.suffix_append _ _) hn

theorem Balanced.stackDiscipline {statements : List Placement}
    (ht : ∀ l ∈ targets block, l ∈ labels block) (hn : ((labels block).map Label.name).Nodup)
    (hs : ∀ s ∈ statements, s.Level block) :
    StackDiscipline block statements fun p => depth (block.take p) where
  start := rfl
  stop := by
    rw [List.take_length]
    exact hb.depth_eq
  operands p i hp := (hb.fits hp).operands
  effect p i hp := (hb.fits hp).effect
  jump p i l hp hl := by
    obtain ⟨q, hq, hd⟩ := hb.exists_target ht hn hp hl
    exact ⟨q, hq, hd.trans (hb.depth_jump hp hl).symm⟩
  label p l hp := hb.depth_label hp
  ret p hp := (hb.fits hp).level 1 rfl
  statement s hm := by
    obtain ⟨a, b, rfl, ha, hab, hsb⟩ := hs s hm
    have hend : a ++ s.code = (a ++ s.code ++ b).take (s.start + s.code.length) := by
      rw [← ha, ← List.length_append, List.take_left]
    refine ⟨?_, ?_, ?_⟩
    · rw [← ha, List.append_assoc, List.drop_left]
      exact List.prefix_append _ _
    · rw [← ha, List.append_assoc, List.take_left]
      exact hab.depth_eq
    · rw [← hend]
      exact (hab.append hsb).depth_eq

end

end Jack.Machine
