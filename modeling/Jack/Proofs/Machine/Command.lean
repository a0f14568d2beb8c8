import Jack.Machine.Instruction
import Jack.Proofs.Text

/-! Commands as lines of text. A command that names a segment of the machine and an index in it, a label
with a number or a qualified subroutine is read back from its line. -/

namespace Jack

/-- How many words the segments of a subroutine have. -/
structure Segment.Sizes where
  locals : Nat
  arguments : Nat
  fields : Nat
  statics : Nat

/-- The index lies in the segment. Of two segments a subroutine uses the first word only. -/
def Segment.Sizes.Holds (sizes : Segment.Sizes) (segment : Segment) (index : Int) : Prop :=
  0 ≤ index ∧
    match segment with
    | .constant => True
    | .local => index < sizes.locals
    | .argument => index < sizes.arguments
    | .this => index < sizes.fields
    | .static => index < sizes.statics
    | .pointer => index ≤ 1
    | .temp | .that => index = 0
    | .other _ => False

section

variable (sizes : Segment.Sizes) (index : Int)

@[simp] theorem Segment.Sizes.holds_constant : sizes.Holds .constant index ↔ 0 ≤ index :=
  and_iff_left trivial

@[simp] theorem Segment.Sizes.holds_pointer : sizes.Holds .pointer index ↔ 0 ≤ index ∧ index ≤ 1 :=
  Iff.rfl

@[simp] theorem Segment.Sizes.holds_temp : sizes.Holds .temp index ↔ index = 0 :=
  ⟨And.right, fun h => ⟨h.ge, h⟩⟩

@[simp] theorem Segment.Sizes.holds_that : sizes.Holds .that index ↔ index = 0 :=
  ⟨And.right, fun h => ⟨h.ge, h⟩⟩

end

def Arithmetic.all : List Arithmetic := [.add, .sub, .neg, .eq, .gt, .lt, .and, .or, .not]

namespace Instruction

/-- The words of a line. -/
def parts : Instruction → List Text
  | .push segment index => ["push", segment.name, Text.ofInt index]
  | .pop segment index => ["pop", segment.name, Text.ofInt index]
  | .arithmetic op => [op.name]
  | .label l => ["label", l.name]
  | .goto l => ["goto", l.name]
  | .ifGoto l => ["if-goto", l.name]
  | .call callee arguments => ["call", callee, Text.ofInt arguments]
  | .function name locals => ["function", name, Text.ofInt locals]
  | .ret => ["return"]
  | .verbatim line => [line]

theorem text_eq (i : Instruction) : i.text = Text.joinWith [Byte.space] i.parts := by
  have hs : (" " : Text) = [Byte.space] := by decide
  cases i with
  | push segment index =>
    have hw : ("push " : Text) = "push" ++ [Byte.space] := by decide
    simp [text, parts, Text.joinWith, hw, hs]
  | pop segment index =>
    have hw : ("pop " : Text) = "pop" ++ [Byte.space] := by decide
    simp [text, parts, Text.joinWith, hw, hs]
  | label l =>
    have hw : ("label " : Text) = "label" ++ [Byte.space] := by decide
    simp [text, parts, Text.joinWith, hw]
  | goto l =>
    have hw : ("goto " : Text) = "goto" ++ [Byte.space] := by decide
    simp [text, parts, Text.joinWith, hw]
  | ifGoto l =>
    have hw : ("if-goto " : Text) = "if-goto" ++ [Byte.space] := by decide
    simp [text, parts, Text.joinWith, hw]
  | call callee arguments =>
    have hw : ("call " : Text) = "call" ++ [Byte.space] := by decide
    simp [text, parts, Text.joinWith, hw, hs]
  | function name locals =>
    have hw : ("function " : Text) = "function" ++ [Byte.space] := by decide
    simp [text, parts, Text.joinWith, hw, hs]
  | arithmetic | ret | verbatim => simp [text, parts, Text.joinWith]

/-- The command that the words of a line make. Labels are known by their names alone. -/
def ofParts? : List Text → Option Instruction
  | [word] =>
    if word = "return" then some .ret
    else (Arithmetic.all.find? (·.name = word)).map .arithmetic
  | [word, target] =>
    if !target.isName then none
    else if word = "label" then some (.label (.named target))
    else if word = "goto" then some (.goto (.named target))
    else if word = "if-goto" then some (.ifGoto (.named target))
    else none
  | [word, operand, number] => do
    let n ← number.decimal?
    if word = "push" then (Segment.all.find? (·.name = operand)).map (.push · n)
    else if word = "pop" then (Segment.all.find? (·.name = operand)).map (.pop · n)
    else if !operand.isQualified then none
    else if word = "call" then some (.call operand n)
    else if word = "function" then some (.function operand n)
    else none
  | _ => none

/-- Reads a line of code. -/
def parse? (line : Text) : Option Instruction := ofParts? (Text.splitOn Byte.space line)

/-- The instruction with its label known by name. -/
def plain : Instruction → Instruction
  | .label l => .label (.named l.name)
  | .goto l => .goto (.named l.name)
  | .ifGoto l => .ifGoto (.named l.name)
  | i => i

/-- A command of the machine, with an index that lies in its segment. -/
def WellFormed (sizes : Segment.Sizes) : Instruction → Prop
  | .push segment index | .pop segment index => sizes.Holds segment index
  | .arithmetic _ | .ret => True
  | .label l | .goto l | .ifGoto l => ∀ t, l ≠ .named t
  | .call name count | .function name count =>
    (∃ a b : Text, a.isName = true ∧ b.isName = true ∧ name = a ++ "." ++ b) ∧ 0 ≤ count
  | .verbatim _ => False

section

variable (sizes : Segment.Sizes) (segment : Segment) (index : Int)

@[simp] theorem wellFormed_push : (push segment index).WellFormed sizes ↔ sizes.Holds segment index :=
  Iff.rfl

@[simp] theorem wellFormed_pop : (pop segment index).WellFormed sizes ↔ sizes.Holds segment index :=
  Iff.rfl

@[simp] theorem wellFormed_arithmetic (op : Arithmetic) : (arithmetic op).WellFormed sizes := trivial

@[simp] theorem wellFormed_ret : ret.WellFormed sizes := trivial

@[simp] theorem wellFormed_label (l : Label) : (label l).WellFormed sizes ↔ ∀ t, l ≠ .named t := Iff.rfl

@[simp] theorem wellFormed_goto (l : Label) : (goto l).WellFormed sizes ↔ ∀ t, l ≠ .named t := Iff.rfl

@[simp] theorem wellFormed_ifGoto (l : Label) : (ifGoto l).WellFormed sizes ↔ ∀ t, l ≠ .named t :=
  Iff.rfl

/-- A call of a subroutine that is qualified by a name. -/
theorem wellFormed_call {a b : Text} (ha : a.isName = true) (hb : b.isName = true) (n : Nat) :
    (call (a ++ "." ++ b) n).WellFormed sizes :=
  ⟨⟨a, b, ha, hb, rfl⟩, by omega⟩

end

section

variable {sizes : Segment.Sizes} {i : Instruction}

theorem find?_name {segment : Segment} {index : Int} (h : sizes.Holds segment index) :
    Segment.all.find? (·.name = segment.name) = some segment := by
  cases segment with
  | other name => exact h.2.elim
  | _ => decide

theorem isName_name {l : Label} (h : ∀ t, l ≠ .named t) : l.name.isName = true := by
  have hd : ∀ n, ∀ b ∈ Text.ofNat n, Byte.isWord b = true := fun n b hb => by
    rw [Byte.isWord, Text.isDigit_of_mem_ofNat hb, Bool.or_true]
  cases l with
  | named t => exact absurd rfl (h t)
  | _ n => exact Text.isName_append (by decide) (hd n)

theorem ofParts?_parts (h : i.WellFormed sizes) : ofParts? i.parts = some i.plain := by
  have hn : ∀ {n : Int}, 0 ≤ n → (Text.ofInt n).decimal? = some n.toNat := fun h => by
    obtain ⟨n, rfl⟩ := Int.eq_ofNat_of_zero_le h
    exact Text.decimal?_ofNat n
  cases i with
  | push segment index =>
    simp [parts, ofParts?, plain, hn h.1, find?_name h, h.1]
  | pop segment index =>
    have hp : ("pop" : Text) ≠ "push" := by decide
    simp [parts, ofParts?, plain, hn h.1, find?_name h, hp, h.1]
  | arithmetic op => cases op <;> decide
  | label l => simp [parts, ofParts?, plain, isName_name h]
  | goto l =>
    have hw : ("goto" : Text) ≠ "label" := by decide
    simp [parts, ofParts?, plain, isName_name h, hw]
  | ifGoto l =>
    have hw : ("if-goto" : Text) ≠ "label" ∧ ("if-goto" : Text) ≠ "goto" := by decide
    simp [parts, ofParts?, plain, isName_name h, hw]
  | call callee n =>
    obtain ⟨⟨a, b, ha, hb, rfl⟩, hp⟩ := h
    have hw : ("call" : Text) ≠ "push" ∧ ("call" : Text) ≠ "pop" := by decide
    have hq := Text.isQualified_append ha hb
    rw [List.append_assoc] at hq
    simp [parts, ofParts?, plain, hn hp, hq, hw, hp]
  | function name n =>
    obtain ⟨⟨a, b, ha, hb, rfl⟩, hp⟩ := h
    have hw : ("function" : Text) ≠ "push" ∧ ("function" : Text) ≠ "pop" ∧
        ("function" : Text) ≠ "call" := by decide
    have hq := Text.isQualified_append ha hb
    rw [List.append_assoc] at hq
    simp [parts, ofParts?, plain, hn hp, hq, hw, hp]
  | ret => decide
  | verbatim line => exact h.elim

theorem isUnbroken_parts (h : i.WellFormed sizes) : ∀ p ∈ i.parts, p.isUnbroken = true := by
  have hq : ∀ {s : Text}, (∃ a b : Text, a.isName = true ∧ b.isName = true ∧ s = a ++ "." ++ b) →
      s.isUnbroken = true := by
    rintro s ⟨a, b, ha, hb, rfl⟩
    have hd : Text.isUnbroken (a ++ ".") = true :=
      Text.isUnbroken_append (Text.isUnbroken_of_isName ha) (by decide)
    exact Text.isUnbroken_append hd (Text.isUnbroken_of_isName hb)
  have hs : ∀ {segment : Segment} {index : Int}, sizes.Holds segment index →
      segment.name.isUnbroken = true := fun {segment _} h => by
    cases segment with
    | other name => exact h.2.elim
    | _ => decide
  cases i with
  | push segment index | pop segment index =>
    simpa [parts] using ⟨by decide, hs h, Text.isUnbroken_ofInt h.1⟩
  | arithmetic op => cases op <;> decide
  | label l | goto l | ifGoto l =>
    simpa [parts] using ⟨by decide, Text.isUnbroken_of_isName (isName_name h)⟩
  | call callee n | function callee n =>
    simpa [parts] using ⟨by decide, hq h.1, Text.isUnbroken_ofInt h.2⟩
  | ret => decide
  | verbatim line => exact h.elim

theorem parse?_text (h : i.WellFormed sizes) : parse? i.text = some i.plain := by
  have hp : ∃ p ps, i.parts = p :: ps := by
    cases i <;> exact ⟨_, _, rfl⟩
  obtain ⟨p, ps, hp⟩ := hp
  have hb : ∀ q ∈ p :: ps, Byte.space ∉ q := by
    rw [← hp]
    exact fun q hq hm => (Text.isUnbroken_iff.mp (isUnbroken_parts h q hq) _ hm).1 rfl
  rw [parse?, text_eq, hp, Text.splitOn_joinWith hb, ← hp, ofParts?_parts h]

theorem newline_not_mem_text (h : i.WellFormed sizes) : Byte.newline ∉ i.text := by
  rw [text_eq]
  refine Text.not_mem_joinWith (by decide) fun p hp hm => ?_
  exact (Text.isUnbroken_iff.mp (isUnbroken_parts h p hp) _ hm).2 rfl

end

end Instruction

end Jack
