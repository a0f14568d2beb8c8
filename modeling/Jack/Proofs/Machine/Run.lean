import Jack.Machine.Instruction

/-! The machine that runs the code of a subroutine. Words have 16 bits, labels belong to the subroutine,
and the heap, which `this` and `that` address through the two pointers, is apart from all other
segments. A call does to the heap and to the statics what a library says; what it leaves in the
temporary segment is not known, so a run has to be right whatever that is. -/

namespace Jack.Machine

abbrev Word := BitVec 16

/-- All bits of `true` are set. -/
def ofBool (b : Bool) : Word := if b then -1 else 0

/-- What a subroutine shares with those that it calls. -/
structure Memory where
  heap : Word → Word
  statics : Nat → Word

namespace Memory

def setHeap (m : Memory) (address w : Word) : Memory :=
  { m with heap := fun a => if a = address then w else m.heap a }

def setStatic (m : Memory) (index : Nat) (w : Word) : Memory :=
  { m with statics := fun i => if i = index then w else m.statics i }

end Memory

/-- The result of calling a subroutine with given arguments, and the memory after it. -/
abbrev Library := Text → List Word → Memory → Word × Memory

/-- The temporary segment. -/
abbrev Temp := Nat → Word

/-- What a call keeps for the subroutine that makes it, its stack and the second pointer apart. -/
structure Frame where
  args : List Word
  locals : List Word
  this : Word

structure State where
  /-- The instructions from the next one on. -/
  rest : List Instruction
  /-- The top comes first. -/
  stack : List Word
  frame : Frame
  that : Word
  temp : Temp
  memory : Memory

namespace State

/-- The word at an index of a segment. -/
def read (s : State) : Segment → Int → Option Word
  | .constant, n => some (BitVec.ofInt 16 n)
  | .argument, .ofNat i => s.frame.args[i]?
  | .local, .ofNat i => s.frame.locals[i]?
  | .static, .ofNat i => some (s.memory.statics i)
  | .this, .ofNat i => some (s.memory.heap (s.frame.this + BitVec.ofNat 16 i))
  | .that, .ofNat i => some (s.memory.heap (s.that + BitVec.ofNat 16 i))
  | .pointer, 0 => some s.frame.this
  | .pointer, 1 => some s.that
  | .temp, .ofNat i => some (s.temp i)
  | _, _ => none

def write (s : State) (w : Word) : Segment → Int → Option State
  | .argument, .ofNat i =>
    if i < s.frame.args.length then some { s with frame.args := s.frame.args.set i w } else none
  | .local, .ofNat i =>
    if i < s.frame.locals.length then some { s with frame.locals := s.frame.locals.set i w } else none
  | .static, .ofNat i => some { s with memory := s.memory.setStatic i w }
  | .this, .ofNat i =>
    some { s with memory := s.memory.setHeap (s.frame.this + BitVec.ofNat 16 i) w }
  | .that, .ofNat i =>
    some { s with memory := s.memory.setHeap (s.that + BitVec.ofNat 16 i) w }
  | .pointer, 0 => some { s with frame.this := w }
  | .pointer, 1 => some { s with that := w }
  | .temp, .ofNat i => some { s with temp := fun j => if j = i then w else s.temp j }
  | _, _ => none

end State

/-- The effect of an operation on the stack. The second operand is on top. -/
def arithmetic : Arithmetic → List Word → Option (List Word)
  | .add, y :: x :: stack => some ((x + y) :: stack)
  | .sub, y :: x :: stack => some ((x - y) :: stack)
  | .neg, x :: stack => some (-x :: stack)
  | .eq, y :: x :: stack => some (ofBool (x == y) :: stack)
  | .gt, y :: x :: stack => some (ofBool (y.slt x) :: stack)
  | .lt, y :: x :: stack => some (ofBool (x.slt y) :: stack)
  | .and, y :: x :: stack => some ((x &&& y) :: stack)
  | .or, y :: x :: stack => some ((x ||| y) :: stack)
  | .not, x :: stack => some (~~~x :: stack)
  | _, _ => none

/-- The label that an instruction sets. -/
def label? : Instruction → Option Label
  | .label l => some l
  | _ => none

/-- The labels that code sets, in order. -/
def labels (code : List Instruction) : List Label := code.filterMap label?

/-- The code from a label on. Only the name of a label counts. -/
def findLabel (l : Label) : List Instruction → Option (List Instruction)
  | [] => none
  | i :: rest =>
    if (label? i).map Label.name = some l.name then some (i :: rest) else findLabel l rest

@[simp] theorem labels_append (a b : List Instruction) : labels (a ++ b) = labels a ++ labels b :=
  List.filterMap_append

@[simp] theorem labels_nil : labels [] = [] := rfl

@[simp] theorem labels_cons (i : Instruction) (code : List Instruction) :
    labels (i :: code) = (label? i).toList ++ labels code := by
  cases h : label? i <;> simp [labels, h]

/-- A label is found where it is set, if no other label has its name. -/
theorem findLabel_eq_of_suffix {l : Label} {rest block : List Instruction}
    (hs : .label l :: rest <:+ block) (hn : ((labels block).map Label.name).Nodup) :
    findLabel l block = some (.label l :: rest) := by
  -- A label of that name further in front would repeat the name.
  obtain ⟨before, rfl⟩ := hs
  induction before with
  | nil => simp [findLabel, label?]
  | cons i before ih =>
    rw [List.cons_append] at hn ⊢
    rw [labels_cons] at hn
    cases hi : label? i with
    | none =>
      rw [hi] at hn
      simpa [findLabel, hi] using ih hn
    | some l' =>
      rw [hi, Option.toList_some, List.singleton_append, List.map_cons, List.nodup_cons] at hn
      have hne : l'.name ≠ l.name := by
        intro h
        apply hn.1
        simp [h, label?]
      simpa [findLabel, hi, hne] using ih hn.2

section

variable (lib : Library) (block : List Instruction)

/-- Executes an instruction of a block, after which the temporary segment is `temp` if it is a call. A
return and whatever the machine does not know have no next state. -/
def exec (temp : Temp) (s : State) : Instruction → Option State
  | .push segment index => do
    let w ← s.read segment index
    some { s with stack := w :: s.stack }
  | .pop segment index =>
    match s.stack with
    | w :: stack => { s with stack }.write w segment index
    | [] => none
  | .arithmetic op => do
    let stack ← arithmetic op s.stack
    some { s with stack }
  | .label _ => some s
  | .goto l => do
    let rest ← findLabel l block
    some { s with rest }
  | .ifGoto l =>
    match s.stack with
    | w :: stack =>
      if w = 0 then some { s with stack }
      else do
        let rest ← findLabel l block
        some { s with rest, stack }
    | [] => none
  | .call callee (.ofNat n) =>
    if n ≤ s.stack.length then
      let (w, memory) := lib callee (s.stack.take n).reverse s.memory
      some { s with stack := w :: s.stack.drop n, memory, temp }
    else none
  | .function _ (.ofNat n) => some { s with frame.locals := List.replicate n 0 }
  | _ => none

/-- Takes the next instruction and executes it. -/
def step (temp : Temp) (s : State) : Option State :=
  match s.rest with
  | [] => none
  | i :: rest => exec lib block temp { s with rest } i

/-- Whatever calls leave in the temporary segment, a run comes to a state that satisfies `P`, and it is
never stuck before. -/
inductive Reaches (P : State → Prop) : State → Prop
  | here {s : State} (h : P s) : Reaches P s
  | step {s : State} (next : Temp → State) (hs : ∀ temp, step lib block temp s = some (next temp))
      (hn : ∀ temp, Reaches P (next temp)) : Reaches P s

/-- A call finds its arguments on top of the stack, the last one first. -/
theorem exec_call (temp : Temp) (s : State) (callee : Text) {args : List Word} {n : Nat}
    (hn : args.length = n) :
    exec lib block temp { s with stack := args.reverse ++ s.stack } (.call callee n) =
      some { s with
        stack := (lib callee args s.memory).1 :: s.stack
        temp := temp
        memory := (lib callee args s.memory).2 } := by
  have ht : (args.reverse ++ s.stack).take n = args.reverse := by
    rw [← hn, ← List.length_reverse, List.take_left]
  have hd : (args.reverse ++ s.stack).drop n = s.stack := by
    rw [← hn, ← List.length_reverse, List.drop_left]
  have hl : n ≤ (args.reverse ++ s.stack).length := by
    simp [← hn]
  change exec lib block temp _ (.call callee (.ofNat n)) = _
  simp only [exec, ht, hd, if_pos hl, List.reverse_reverse]

end

namespace Reaches

variable {lib : Library} {block : List Instruction} {P : State → Prop}
variable {rest stack : List _} {fr : Frame} {that : Word} {temp : Temp} {m : Memory}

theorem of_step {s s' : State} (hs : ∀ temp, Machine.step lib block temp s = some s')
    (h : Reaches lib block P s') : Reaches lib block P s :=
  .step (fun _ => s') hs fun _ => h

theorem push {segment : Segment} {index : Int} {w : Word}
    (hr : State.read ⟨rest, stack, fr, that, temp, m⟩ segment index = some w)
    (h : Reaches lib block P ⟨rest, w :: stack, fr, that, temp, m⟩) :
    Reaches lib block P ⟨.push segment index :: rest, stack, fr, that, temp, m⟩ :=
  .of_step (fun _ => by simp [Machine.step, exec, hr]) h

theorem pop {segment : Segment} {index : Int} {w : Word} {s : State}
    (hw : State.write ⟨rest, stack, fr, that, temp, m⟩ w segment index = some s)
    (h : Reaches lib block P s) :
    Reaches lib block P ⟨.pop segment index :: rest, w :: stack, fr, that, temp, m⟩ :=
  .of_step (fun _ => by simp [Machine.step, exec, hw]) h

theorem arithmetic {op : Arithmetic} {stack' : List Word}
    (ha : Machine.arithmetic op stack = some stack')
    (h : Reaches lib block P ⟨rest, stack', fr, that, temp, m⟩) :
    Reaches lib block P ⟨.arithmetic op :: rest, stack, fr, that, temp, m⟩ :=
  .of_step (fun _ => by simp [Machine.step, exec, ha]) h

theorem label {l : Label} (h : Reaches lib block P ⟨rest, stack, fr, that, temp, m⟩) :
    Reaches lib block P ⟨.label l :: rest, stack, fr, that, temp, m⟩ :=
  .of_step (fun _ => rfl) h

theorem goto {l : Label} {target : List Instruction} (hl : findLabel l block = some target)
    (h : Reaches lib block P ⟨target, stack, fr, that, temp, m⟩) :
    Reaches lib block P ⟨.goto l :: rest, stack, fr, that, temp, m⟩ :=
  .of_step (fun _ => by simp [Machine.step, exec, hl]) h

theorem ifGoto {l : Label} {target : List Instruction} {w : Word} (hw : w ≠ 0)
    (hl : findLabel l block = some target)
    (h : Reaches lib block P ⟨target, stack, fr, that, temp, m⟩) :
    Reaches lib block P ⟨.ifGoto l :: rest, w :: stack, fr, that, temp, m⟩ :=
  .of_step (fun _ => by simp only [Machine.step, exec, if_neg hw, hl]; rfl) h

theorem ifGoto_zero {l : Label} (h : Reaches lib block P ⟨rest, stack, fr, that, temp, m⟩) :
    Reaches lib block P ⟨.ifGoto l :: rest, 0 :: stack, fr, that, temp, m⟩ :=
  .of_step (fun _ => by simp [Machine.step, exec]) h

theorem call {callee : Text} {args : List Word} {n : Nat} (hn : args.length = n)
    (h : ∀ temp, Reaches lib block P
      ⟨rest, (lib callee args m).1 :: stack, fr, that, temp, (lib callee args m).2⟩) :
    Reaches lib block P ⟨.call callee n :: rest, args.reverse ++ stack, fr, that, temp, m⟩ :=
  .step _ (fun temp => exec_call lib block temp ⟨rest, stack, fr, that, _, m⟩ callee hn) h

theorem function {f : Text} {n : Nat}
    (h : Reaches lib block P
      ⟨rest, stack, { fr with locals := List.replicate n 0 }, that, temp, m⟩) :
    Reaches lib block P ⟨.function f n :: rest, stack, fr, that, temp, m⟩ :=
  .of_step (fun _ => rfl) h

end Reaches

end Jack.Machine
