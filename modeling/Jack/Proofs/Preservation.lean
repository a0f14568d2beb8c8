import Jack.Proofs.Blocks
import Jack.Proofs.Simulation.Subroutine
import Jack.Proofs.SinglePass

/-! What a class compiles to does what the class means. -/

namespace Jack

open Jack.Tree

/-- The code of a class that compiles falls into its subroutines. A run of the code of a subroutine does
what the subroutine does, whatever the library, the arguments and the memory are and whatever else the
machine holds: it comes to a return with the word that the subroutine returns, or to its end if the
subroutine returns none, and to the same memory. -/
theorem compile_simulates {source : Source} {u : Compiled} (h : (compile source).outcome = .ok u) :
    (∃ c : ClassDec, c.tokens = source.beforeEnd) ∧
      ∀ c : ClassDec, c.tokens = source.beforeEnd →
        Machine.splitBlocks u.instructions =
            ([], c.subroutines.map (·.code c.name.lexeme c.declarations)) ∧
          ∀ d ∈ c.subroutines, ∀ lib args this m r m',
            d.Exec lib c.name.lexeme c.declarations args this m r m' →
            ∀ stack locals that temp,
              Machine.Reaches lib (d.code c.name.lexeme c.declarations) (Machine.Finished stack r m')
                ⟨d.code c.name.lexeme c.declarations, stack, ⟨args, locals, this⟩, that, temp, m⟩ := by
  obtain ⟨c, hc, -⟩ := exists_class_of_ok h
  refine ⟨⟨c, hc⟩, fun c hc => ⟨splitBlocks_of_ok h hc, ?_⟩⟩
  intro d _ lib args this m r m' he stack locals that temp
  exact d.reaches (fun _ => ofClass_of_mem_classVarDecs) he

namespace Counter

/-- No memory is used and calls do nothing. -/
def memory : Machine.Memory := ⟨fun _ => 0, fun _ => 0⟩

def library : Machine.Library := fun _ _ m => (0, m)

/-- Adding 1 to the counter at 16 goes once through the loop. -/
theorem exec_add :
    add.Exec library "Counter" tree.declarations [16, 1] 0 memory (some 1) (memory.setHeap 16 1) := by
  let env := add.env "Counter" tree.declarations
  let before : Store := ⟨add.initial [16, 1], memory⟩
  let between : Store := ⟨add.initial [16, 1], memory.setHeap 16 1⟩
  let after : Store := ⟨fun y => if y = "k" then some 0 else add.initial [16, 1] y, between.memory⟩
  have hn : (assign "n" (binary (var "n") .add (number "1"))).Exec library env 16 before none between :=
    .letVar rfl rfl
  have hk : (assign "k" (binary (var "k") .sub (number "1"))).Exec library env 16 between none after :=
    .letVar rfl rfl
  have hl : loop.Exec library env 16 before none after :=
    .while rfl (.cons hn (.cons hk .nil)) (.whileNot rfl (by decide))
  exact ⟨16, memory, after, rfl, .cons hl (.consReturn (.returnValue rfl)), rfl⟩

end Counter

theorem compile_simulates_counter :
    ∃ u, (compile Counter.source).outcome = .ok u ∧
      Machine.Reaches Counter.library (Counter.add.code "Counter" Counter.tree.declarations)
        (Machine.Finished [] (some 1) (Counter.memory.setHeap 16 1))
        ⟨Counter.add.code "Counter" Counter.tree.declarations, [], ⟨[16, 1], [], 0⟩, 0, fun _ => 0,
          Counter.memory⟩ := by
  have hd : Counter.add ∈ Counter.tree.subroutines := .head _
  have h := (compile_simulates Counter.outcome_source).2 Counter.tree Counter.tokens_tree
  exact ⟨_, Counter.outcome_source, h.2 Counter.add hd _ _ _ _ _ _ Counter.exec_add [] [] 0 _⟩

end Jack
