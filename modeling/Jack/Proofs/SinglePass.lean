import Jack.Proofs.Acceptance
import Mathlib.Data.List.TakeWhile

/-! One pass over the tokens gives the code that recursion on the tree gives. -/

namespace Jack

open Jack.Tree

theorem beforeEnd_of_tokens (c : ClassDec) {source : Source} (h : source.tokens = c.tokens) :
    source.beforeEnd = c.tokens := by
  unfold Source.beforeEnd
  rw [h, List.takeWhile_eq_self_iff]
  simpa using c.terminal_ne_eof

/-- The tokens of a class that is well scoped and whose constants fit compile to its name and to its
code. -/
theorem compile_tokens (c : ClassDec) (source : Source) (ht : source.tokens = c.tokens)
    (hs : c.WellScoped) (hf : c.ConstantsFit) :
    ∃ u, (compile source).outcome = .ok u ∧ u.className = c.name.lexeme ∧ u.instructions = c.code := by
  have ho := outcome_of_tokens c (beforeEnd_of_tokens c ht).symm
  rw [c.fault_effect_eq_none_iff.mpr ⟨hf, hs⟩] at ho
  exact ⟨_, ho, rfl, rfl⟩

namespace Counter

def word (k : Keyword) : Word k := ⟨⟨.keyword k, k.spelling, 1⟩, by simp⟩

def symbol (p : Punct) : Symbol p := ⟨⟨.punct p, [p.byte], 1⟩, by simp⟩

def name (x : Text) : Name := ⟨⟨.ident, x, 1⟩, by simp⟩

def parens : Parens := ⟨symbol _, symbol _⟩

def braces : Braces := ⟨symbol _, symbol _⟩

def var (x : Text) : Term := .var (name x)

def number (lexeme : Text) : Term := .number ⟨⟨.number, lexeme, 1⟩, by simp⟩

def binary (l : Term) (op : Operator) (r : Term) : Expression := .mk l (.cons op (symbol _) r .nil)

def assign (x : Text) (value : Expression) : Statement :=
  .letVar (word _) (name x) (symbol _) value (symbol _)

/-- while (k > 0) { let n = n + 1; let k = k - 1; } -/
def loop : Statement :=
  .while (word _) parens (binary (var "k") .gt (number "0")) braces
    (.cons (assign "n" (binary (var "n") .add (number "1")))
      (.cons (assign "k" (binary (var "k") .sub (number "1"))) .nil))

def type : Leaf Pass.typeTerminals :=
  ⟨⟨.keyword .int, Keyword.spelling .int, 1⟩, by simp [Pass.typeTerminals]⟩

def void : Leaf (.keyword .void :: Pass.typeTerminals) :=
  ⟨⟨.keyword .void, Keyword.spelling .void, 1⟩, List.mem_cons_self⟩

/-- method int add(int k) { while … return n; } -/
def add : SubroutineDec where
  kind := .method
  word := word _
  type := ⟨type.token, List.mem_cons_of_mem _ type.terminal_mem⟩
  name := name "add"
  parens := parens
  parameters := .some ⟨type, name "k"⟩ []
  braces := braces
  vars := []
  body := .cons loop (.cons (.returnValue (word _) (.mk (var "n") .nil) (symbol _)) .nil)

/-- class Counter { field int n; method int add … } -/
def tree : ClassDec where
  word := word _
  name := name "Counter"
  braces := braces
  vars := [⟨.field, word _, ⟨type, name "n", [], symbol _⟩⟩]
  subroutines := [add]

theorem fault_tree : tree.effect.fault = none := by decide

def source : Source := .replay tree.tokens

theorem tokens_tree : tree.tokens = source.beforeEnd := (beforeEnd_of_tokens tree rfl).symm

theorem outcome_source : (compile source).outcome = .ok ⟨"Counter", tree.code, tree.entries⟩ := by
  have h := outcome_of_tokens tree tokens_tree
  rwa [fault_tree] at h

end Counter

example : Counter.tree.code.map Instruction.text =
    (["function Counter.add 0", "push argument 0", "pop pointer 0", "label WHILE_EXP0",
      "push argument 1", "push constant 0", "gt", "not", "if-goto WHILE_END0", "push this 0",
      "push constant 1", "add", "pop this 0", "push argument 1", "push constant 1", "sub",
      "pop argument 1", "goto WHILE_EXP0", "label WHILE_END0", "push this 0", "return"] :
      List Text) := by decide

theorem compile_tokens_counter :
    Counter.tree.WellScoped ∧ Counter.tree.ConstantsFit ∧
      ∃ u, (compile Counter.source).outcome = .ok u ∧
        u.className = ("Counter" : Text) ∧ u.instructions = Counter.tree.code := by
  have h := Counter.tree.fault_effect_eq_none_iff.mp Counter.fault_tree
  exact ⟨h.2, h.1, compile_tokens Counter.tree Counter.source rfl h.2 h.1⟩

end Jack
