import Jack.Proofs.SinglePass
import Mathlib.Data.Set.List
import Mathlib.Data.List.Forall2

/-! Subroutines compile one by one. A class compiles exactly where each of its subroutines compiles alone
in it, and its code is theirs in order. -/

namespace Jack

namespace Tree.ClassDec

/-- The class with one subroutine alone. -/
def only (c : ClassDec) (d : SubroutineDec) : ClassDec := { c with subroutines := [d] }

variable (c : ClassDec)

theorem outcome_replay (h : c.effect.fault = none) :
    (compile (.replay c.tokens)).outcome = .ok ⟨c.name.lexeme, c.code, c.entries⟩ := by
  rw [outcome_of_tokens c (beforeEnd_of_tokens c rfl).symm, h]

theorem exists_ok_iff :
    (∃ u, (compile (.replay c.tokens)).outcome = .ok u) ↔ c.effect.fault = none := by
  refine ⟨fun ⟨u, hu⟩ => ?_, fun h => ⟨_, c.outcome_replay h⟩⟩
  rw [outcome_of_tokens c (beforeEnd_of_tokens c rfl).symm] at hu
  split at hu
  · assumption
  · cases hu

/-- A class has no fault exactly where none of its subroutines has one alone in it. -/
theorem fault_effect_only :
    c.effect.fault = none ↔ ∀ d ∈ c.subroutines, (c.only d).effect.fault = none := by
  simp [only, declarations]

theorem code_eq_flatMap_only : c.code = c.subroutines.flatMap fun d => (c.only d).code := by
  simp [code, only, declarations]

end Tree.ClassDec

open Jack.Tree

/-- The tokens of a class with the given declarations of variables and of subroutines. -/
def classTokens (word : Word .class) (name : Name) (braces : Braces) (vars subroutines : List (List Token)) :
    List Token :=
  word.token :: name.token :: braces.tokens (vars.flatten ++ subroutines.flatten)

/-- Sequences that all derive from trees are those of a list of trees. -/
theorem exists_map_eq {α : Type} {f : α → List Token} {parts : List (List Token)}
    (h : ∀ p ∈ parts, ∃ x, f x = p) : ∃ items : List α, items.map f = parts := by
  have hr : parts ∈ Set.range (List.map f) := by
    rw [Set.range_list_map]
    exact h
  exact hr

/-- A class compiles exactly where it compiles with each of its subroutines alone, and its code is then
theirs one after another. -/
theorem compile_subroutines (word : Word .class) (name : Name) (braces : Braces)
    (vars subroutines : List (List Token)) (hv : ∀ v ∈ vars, ∃ d : ClassVarDec, d.tokens = v)
    (hs : ∀ s ∈ subroutines, ∃ d : SubroutineDec, d.tokens = s) :
    ((∃ u, (compile (.replay (classTokens word name braces vars subroutines))).outcome = .ok u) ↔
      ∀ s ∈ subroutines,
        ∃ u, (compile (.replay (classTokens word name braces vars [s]))).outcome = .ok u) ∧
    ∀ u, (compile (.replay (classTokens word name braces vars subroutines))).outcome = .ok u →
      ∃ us, List.Forall₂ (fun s v =>
          (compile (.replay (classTokens word name braces vars [s]))).outcome = .ok v) subroutines us ∧
        u.instructions = us.flatMap Compiled.instructions := by
  obtain ⟨vs, rfl⟩ := exists_map_eq hv
  obtain ⟨ds, rfl⟩ := exists_map_eq hs
  let c : ClassDec := ⟨word, name, braces, vs, ds⟩
  have hc : classTokens word name braces (vs.map ClassVarDec.tokens) (ds.map SubroutineDec.tokens) =
      c.tokens := by
    simp [classTokens, ClassDec.tokens, c, List.flatMap]
  have hd : ∀ d, classTokens word name braces (vs.map ClassVarDec.tokens) [d.tokens] =
      (c.only d).tokens := by
    simp [classTokens, ClassDec.tokens, ClassDec.only, c, List.flatMap]
  simp only [hc, hd, List.forall_mem_map, ClassDec.exists_ok_iff, List.forall₂_map_left_iff]
  refine ⟨c.fault_effect_only, fun u hu => ?_⟩
  have hn := c.exists_ok_iff.mp ⟨u, hu⟩
  rw [c.outcome_replay hn] at hu
  cases hu
  have he := c.fault_effect_only.mp hn
  refine ⟨ds.map fun d => ⟨name.lexeme, (c.only d).code, (c.only d).entries⟩, ?_, ?_⟩
  · rw [List.forall₂_map_right_iff, List.forall₂_same]
    exact fun d hd => (c.only d).outcome_replay (he d hd)
  · rw [List.flatMap_map]
    exact c.code_eq_flatMap_only

namespace Counter

/-- method void reset() { let n = 0; return; } -/
def reset : SubroutineDec where
  kind := .method
  word := word _
  type := void
  name := name "reset"
  parens := parens
  parameters := .none
  braces := braces
  vars := []
  body := .cons (assign "n" (.mk (number "0") .nil)) (.cons (.return (word _) (symbol _)) .nil)

/-- class Counter { field int n; method int add … method void reset … } -/
def both : ClassDec := { tree with subroutines := [add, reset] }

theorem fault_both : both.effect.fault = none := by decide

end Counter

open Counter in
theorem compile_subroutines_counter :
    ∃ u v w, (compile (.replay both.tokens)).outcome = .ok u ∧
      (compile (.replay (both.only add).tokens)).outcome = .ok v ∧
      (compile (.replay (both.only reset).tokens)).outcome = .ok w ∧
      u.instructions = v.instructions ++ w.instructions := by
  have h := compile_subroutines both.word both.name both.braces
    (both.vars.map ClassVarDec.tokens) (both.subroutines.map SubroutineDec.tokens)
    (by simp) (by simp)
  obtain ⟨us, hus, hi⟩ := h.2 _ (both.outcome_replay fault_both)
  obtain ⟨v, vs, hv, hvs, rfl⟩ := List.forall₂_cons_left_iff.mp hus
  obtain ⟨w, ws, hw, hws, rfl⟩ := List.forall₂_cons_left_iff.mp hvs
  cases hws
  exact ⟨_, v, w, both.outcome_replay fault_both, hv, hw, by simpa using hi⟩

end Jack
