import Jack.Proofs.SinglePass

/-! The constants that a class pushes. An integer constant is a word of the machine. The length and the
characters of a string constant are pushed as they are, and so is the number of fields in a constructor:
the constants of a class fit the machine exactly where these do. -/

namespace Jack

/-- The constant that an instruction pushes, if it pushes one, is a word. -/
def Instruction.ConstantFits : Instruction → Prop
  | .push .constant n => 0 ≤ n ∧ n ≤ maxWord
  | _ => True

namespace Instruction

@[simp] theorem constantFits_constant (n : Int) :
    ConstantFits (.push .constant n) ↔ 0 ≤ n ∧ n ≤ maxWord := Iff.rfl

@[simp] theorem constantFits_push {segment : Segment} (h : segment ≠ .constant) (n : Int) :
    ConstantFits (.push segment n) := by
  cases segment <;> trivial

@[simp] theorem constantFits_pop (segment : Segment) (n : Int) : ConstantFits (.pop segment n) := trivial

@[simp] theorem constantFits_arithmetic (op : Arithmetic) : ConstantFits (.arithmetic op) := trivial

@[simp] theorem constantFits_label (l : Label) : ConstantFits (.label l) := trivial

@[simp] theorem constantFits_goto (l : Label) : ConstantFits (.goto l) := trivial

@[simp] theorem constantFits_ifGoto (l : Label) : ConstantFits (.ifGoto l) := trivial

@[simp] theorem constantFits_call (f : Text) (n : Int) : ConstantFits (.call f n) := trivial

@[simp] theorem constantFits_function (f : Text) (n : Int) : ConstantFits (.function f n) := trivial

@[simp] theorem constantFits_ret : ConstantFits .ret := trivial

end Instruction

@[simp] theorem Storage.segment_ne_constant (storage : Storage) : storage.segment ≠ .constant := by
  cases storage <;> simp [segment]

/-- If a token is a string constant, its length and its characters are words. -/
def Token.StringFits (t : Token) : Prop :=
  t.terminal = .string →
    (Utf8.codePoints t.lexeme).length ≤ maxWord ∧ ∀ c ∈ Utf8.codePoints t.lexeme, c ≤ maxWord

instance (t : Token) : Decidable t.StringFits :=
  inferInstanceAs (Decidable (t.terminal = .string →
    (Utf8.codePoints t.lexeme).length ≤ maxWord ∧ ∀ c ∈ Utf8.codePoints t.lexeme, c ≤ maxWord))

theorem Text.word?_le {s : Text} {n : Nat} (h : s.word? = some n) : n ≤ maxWord := by
  unfold Text.word? at h
  split at h
  · cases h
  · split at h
    · cases h
    · cases h
      exact Nat.le_of_lt_succ (Int16.toNatClampNeg_lt _)

theorem Token.getD_word?_le (t : Token) : t.word?.getD 0 ≤ maxWord := by
  cases h : t.word? with
  | none => exact Nat.zero_le _
  | some n => exact Text.word?_le h

namespace Tree

@[simp] theorem Leaf.stringFits {terminals : List Terminal} (h : .string ∉ terminals)
    (l : Leaf terminals) : l.token.StringFits :=
  fun hs => absurd (hs ▸ l.terminal_mem) h

theorem constantFits_stringCode (constant : Leaf [.string]) :
    (∀ i ∈ stringCode constant.lexeme, i.ConstantFits) ↔ constant.token.StringFits := by
  simp only [stringCode, List.forall_mem_cons, List.forall_mem_flatMap]
  simp [Token.StringFits]

theorem Literal.constantFits (l : Literal) : ∀ i ∈ l.code, i.ConstantFits := by
  cases l <;> simp [Literal.code]

theorem Unary.constantFits (op : Unary) : op.code.ConstantFits := by
  cases op <;> trivial

theorem Operator.constantFits (op : Operator) : op.code.ConstantFits := by
  cases op <;> trivial

section

variable (env : Env)

mutual

theorem Term.constantFits_iff : (t : Term) →
    ((∀ i ∈ t.code env, i.ConstantFits) ↔ ∀ x ∈ t.tokens, x.StringFits)
  | .number constant => by
    have hw := constant.token.getD_word?_le
    simpa using hw
  | .string constant => by simpa using constantFits_stringCode constant
  | .literal l word => by simpa using l.constantFits
  | .var x => by simp [Env.push]
  | .element x brackets index => by
    simpa [or_imp, forall_and, Env.push] using index.constantFits_iff
  | .call c => by simpa using c.constantFits_iff
  | .paren parens e => by simpa [or_imp, forall_and] using e.constantFits_iff
  | .unary op sign t => by simpa [or_imp, forall_and, op.constantFits] using t.constantFits_iff

theorem Expression.constantFits_iff : (e : Expression) →
    ((∀ i ∈ e.code env, i.ConstantFits) ↔ ∀ x ∈ e.tokens, x.StringFits)
  | .mk first rest => by
    simp [or_imp, forall_and, first.constantFits_iff, rest.constantFits_iff]

theorem Operations.constantFits_iff : (o : Operations) →
    ((∀ i ∈ o.code env, i.ConstantFits) ↔ ∀ x ∈ o.tokens, x.StringFits)
  | .nil => by simp
  | .cons op sign t rest => by
    simp [or_imp, forall_and, op.constantFits, t.constantFits_iff, rest.constantFits_iff]

theorem Call.constantFits_iff : (c : Call) →
    ((∀ i ∈ c.code env, i.ConstantFits) ↔ ∀ x ∈ c.tokens, x.StringFits)
  | .own f parens args => by
    simpa [or_imp, forall_and] using args.constantFits_iff
  | .qualified x dot f parens args => by
    rw [Call.code]
    split <;> simpa [or_imp, forall_and] using args.constantFits_iff

theorem Arguments.constantFits_iff : (a : Arguments) →
    ((∀ i ∈ a.code env, i.ConstantFits) ↔ ∀ x ∈ a.tokens, x.StringFits)
  | .none => by simp
  | .some first rest => by
    simp [or_imp, forall_and, first.constantFits_iff, rest.constantFits_iff]

theorem MoreArguments.constantFits_iff : (a : MoreArguments) →
    ((∀ i ∈ a.code env, i.ConstantFits) ↔ ∀ x ∈ a.tokens, x.StringFits)
  | .nil => by simp
  | .cons comma e rest => by
    simp [or_imp, forall_and, e.constantFits_iff, rest.constantFits_iff]

end

mutual

theorem Statement.constantFits_iff : (st : Statement) → (i w : Nat) →
    ((∀ x ∈ st.code env i w, x.ConstantFits) ↔ ∀ x ∈ st.tokens, x.StringFits)
  | .letVar word x eq value semicolon, _, _ => by
    simpa [or_imp, forall_and, Env.pop] using value.constantFits_iff env
  | .letElement word x brackets index eq value semicolon, _, _ => by
    simp [or_imp, forall_and, Env.push, index.constantFits_iff env, value.constantFits_iff env]
  | .ifThen word parens cond braces body, i, w => by
    simp [or_imp, forall_and, cond.constantFits_iff env, body.constantFits_iff (i + 1) w]
  | .ifElse word parens cond braces body elseWord elseBraces elseBody, i, w => by
    simp [or_imp, forall_and, cond.constantFits_iff env, body.constantFits_iff (i + 1) w,
      elseBody.constantFits_iff (i + 1 + body.ifs) (w + body.whiles)]
  | .while word parens cond braces body, i, w => by
    simp [or_imp, forall_and, cond.constantFits_iff env, body.constantFits_iff i (w + 1)]
  | .do word c semicolon, _, _ => by simpa [or_imp, forall_and] using c.constantFits_iff env
  | .return word semicolon, _, _ => by simp
  | .returnValue word value semicolon, _, _ => by
    simpa [or_imp, forall_and] using value.constantFits_iff env

theorem Statements.constantFits_iff : (sts : Statements) → (i w : Nat) →
    ((∀ x ∈ sts.code env i w, x.ConstantFits) ↔ ∀ x ∈ sts.tokens, x.StringFits)
  | .nil, _, _ => by simp
  | .cons first rest, i, w => by
    simp [or_imp, forall_and, first.constantFits_iff i w,
      rest.constantFits_iff (i + first.ifs) (w + first.whiles)]

end

end

/-! No token of a declaration is a string constant. -/

theorem stringFits_type (type : Leaf Pass.typeTerminals) : type.token.StringFits :=
  type.stringFits (by simp [Pass.typeTerminals])

theorem VarNames.stringFits (v : VarNames) : ∀ x ∈ v.tokens, x.StringFits := by
  simp only [tokens, List.cons_append, List.forall_mem_cons, List.forall_mem_append,
    List.forall_mem_flatMap]
  simp [stringFits_type]

theorem ParameterList.stringFits (ps : ParameterList) : ∀ x ∈ ps.tokens, x.StringFits := by
  cases ps with
  | none => simp [tokens]
  | some first rest =>
    simp only [tokens, List.forall_mem_append, List.forall_mem_flatMap]
    simp [Parameter.tokens, stringFits_type]

/-- The constants of a subroutine fit where its strings do and, in a constructor, the number of fields. -/
theorem SubroutineDec.constantFits_iff (className : Text) (ofClass : List Declaration)
    (d : SubroutineDec) :
    (∀ i ∈ d.code className ofClass, i.ConstantFits) ↔
      (∀ x ∈ d.tokens, x.StringFits) ∧
        (d.kind = .constructor → ofClass.countP (·.storage = .field) ≤ maxWord) := by
  have ht : d.type.token.StringFits := d.type.stringFits (by simp [Pass.typeTerminals])
  have hb : (∀ x ∈ d.tokens, x.StringFits) ↔ ∀ x ∈ d.body.tokens, x.StringFits := by
    have hv : ∀ v ∈ d.vars, ∀ x ∈ v.tokens, x.StringFits := fun v _ => by
      simpa [VarDec.tokens] using v.vars.stringFits
    simp only [tokens, Pair.tokens, List.cons_append, List.forall_mem_cons, List.forall_mem_append,
      List.forall_mem_flatMap]
    simp [ht, and_iff_right d.parameters.stringFits, and_iff_right hv]
  have hp : (∀ i ∈ d.kind.prologue (ofClass.countP (·.storage = .field)), i.ConstantFits) ↔
      (d.kind = .constructor → ofClass.countP (·.storage = .field) ≤ maxWord) := by
    cases d.kind <;> simp [SubroutineKind.prologue]
  rw [code, List.cons_append, List.forall_mem_cons, List.forall_mem_append, hp, hb,
    d.body.constantFits_iff]
  simp [and_comm]

theorem ClassDec.constantFits_iff (c : ClassDec) :
    (∀ i ∈ c.code, i.ConstantFits) ↔
      (∀ x ∈ c.tokens, x.StringFits) ∧ ((∃ d ∈ c.subroutines, d.kind = .constructor) →
        c.declarations.countP (·.storage = .field) ≤ maxWord) := by
  have hv : ∀ v ∈ c.vars, ∀ x ∈ v.tokens, x.StringFits := fun v _ => by
    have hw : v.word.token.StringFits := v.word.stringFits (by simp)
    simpa [ClassVarDec.tokens, hw] using v.vars.stringFits
  have hs : (∀ x ∈ c.tokens, x.StringFits) ↔
      ∀ d ∈ c.subroutines, ∀ x ∈ d.tokens, x.StringFits := by
    simp only [tokens, Pair.tokens, List.cons_append, List.forall_mem_cons, List.forall_mem_append,
      List.forall_mem_flatMap]
    simpa using fun _ => hv
  rw [code, List.forall_mem_flatMap, hs]
  simp only [SubroutineDec.constantFits_iff, forall_and, exists_imp, and_imp]

end Tree

open Jack.Tree

theorem forall_constantFits_iff (code : List Instruction) :
    (∀ i ∈ code, i.ConstantFits) ↔ ∀ n : Int, .push .constant n ∈ code → 0 ≤ n ∧ n ≤ maxWord := by
  constructor
  · exact fun h n hn => h _ hn
  · intro h i hi
    unfold Instruction.ConstantFits
    split
    · exact h _ hi
    · trivial

/-- The constants that a text compiles to are words exactly where all its strings have no more characters
than the largest word, and none above it, and a class with a constructor has no more fields. -/
theorem compileText_constants_fit_iff {s : Text} {u : Compiled} (h : compileText s = .ok u) :
    (∃ c : ClassDec, c.tokens = (Lexer.ofText s).toSource.beforeEnd) ∧
      ∀ c : ClassDec, c.tokens = (Lexer.ofText s).toSource.beforeEnd →
        ((∀ n : Int, .push .constant n ∈ u.instructions → 0 ≤ n ∧ n ≤ maxWord) ↔
          (∀ t ∈ c.tokens, t.StringFits) ∧ ((∃ d ∈ c.subroutines, d.kind = .constructor) →
            c.declarations.countP (·.storage = .field) ≤ maxWord)) := by
  obtain ⟨c, hc, -, -⟩ := exists_class_of_ok h
  refine ⟨⟨c, hc⟩, fun c hc => ?_⟩
  have hu : u.instructions = c.code := by
    have ho : (compile (Lexer.ofText s).toSource).outcome = .ok u := h
    rw [outcome_of_tokens c hc] at ho
    split at ho
    · cases ho
      rfl
    · cases ho
  rw [hu, ← forall_constantFits_iff]
  exact c.constantFits_iff

namespace Greeter

open Counter (word symbol name parens braces type)

/-- do Output.printString("Hi!"); -/
def greet : Statement :=
  .do (word _) (.qualified (name "Output") (symbol _) (name "printString") parens
    (.some (.mk (.string ⟨⟨.string, "Hi!", 1⟩, by simp⟩) .nil) .nil)) (symbol _)

/-- constructor Greeter new() { do … return this; } -/
def new : SubroutineDec where
  kind := .constructor
  word := word _
  type := ⟨⟨.ident, "Greeter", 1⟩, by simp [Pass.typeTerminals]⟩
  name := name "new"
  parens := parens
  parameters := .none
  braces := braces
  vars := []
  body := .cons greet (.cons (.returnValue (word _) (.mk (.literal .this (word _)) .nil) (symbol _)) .nil)

/-- class Greeter { field int n; constructor Greeter new … } -/
def tree : ClassDec where
  word := word _
  name := name "Greeter"
  braces := braces
  vars := [⟨.field, word _, ⟨type, name "n", [], symbol _⟩⟩]
  subroutines := [new]

/-- The class as a source spells it. -/
def text : Text :=
  "class Greeter \x7b field int n; constructor Greeter new() \x7b " ++
    "do Output.printString(\"Hi!\"); return this; \x7d \x7d"

theorem tokens_text : tree.tokens = (Lexer.ofText text).toSource.beforeEnd := by decide +kernel

theorem outcome_text : compileText text = .ok ⟨"Greeter", tree.code, tree.entries⟩ := by
  have hf : tree.effect.fault = none := by decide +kernel
  have h := outcome_of_tokens tree tokens_text
  rwa [hf] at h

end Greeter

theorem compileText_constants_fit_iff_greeter :
    ∃ u, compileText Greeter.text = .ok u ∧
      ∀ n : Int, .push .constant n ∈ u.instructions → 0 ≤ n ∧ n ≤ maxWord := by
  have hs : ∀ t ∈ Greeter.tree.tokens, t.StringFits := by decide +kernel
  have hf : Greeter.tree.declarations.countP (·.storage = .field) ≤ maxWord := by
    decide +kernel
  have h := (compileText_constants_fit_iff Greeter.outcome_text).2 Greeter.tree Greeter.tokens_text
  exact ⟨_, Greeter.outcome_text, h.mpr ⟨hs, fun _ => hf⟩⟩

/-- A class whose string holds a character above the largest word. -/
def smiling : Text :=
  "class Main \x7b function void main() \x7b do Output.printString(\"😀\"); return; \x7d \x7d"

/-- The character is pushed as it is, and is no word. -/
theorem compileText_smiling_exceeds_maxWord :
    ∃ u, compileText smiling = .ok u ∧ .push .constant 128512 ∈ u.instructions ∧
      ¬ ∀ n : Int, .push .constant n ∈ u.instructions → 0 ≤ n ∧ n ≤ maxWord := by
  have h : (compileText smiling).map Compiled.instructions =
      .ok [.function "Main.main" 0, .push .constant 1, .call "String.new" 1, .push .constant 128512,
        .call "String.appendChar" 2, .call "Output.printString" 1, .pop .temp 0, .push .constant 0,
        .ret] := by
    decide +kernel
  cases hu : compileText smiling with
  | error e =>
    rw [hu] at h
    cases h
  | ok u =>
    rw [hu] at h
    have hi := Except.ok.inj h
    have hm : .push .constant 128512 ∈ u.instructions := by simp [hi]
    exact ⟨u, rfl, hm, fun hall => absurd (hall 128512 hm).2 (by decide)⟩

end Jack
