import Jack.Proofs.Labels
import Jack.Proofs.Simulation.Statement
import Jack.Proofs.Tree.ClassEffect

/-! The code of a subroutine does what the subroutine means. It starts with the variables in the places
that their declarations give them, and no two of them share a place. -/

namespace Jack

/-- A run is at its end: at a return with the word to return on top of the stack, or behind the last
instruction with nothing on it. -/
def Machine.Finished (stack : List Word) (r : Option Word) (m : Memory) (s : State) : Prop :=
  s.memory = m ∧
    match r with
    | none => s.rest = [] ∧ s.stack = stack
    | some v => s.rest.head? = some .ret ∧ s.stack = v :: stack

namespace Declaration

variable {x y : Text} {v u : Variable} {ds : List Declaration}

theorem index_lt_of_find? (h : find? x ds = some v) : v.index < ds.countP (·.storage = v.storage) := by
  induction ds with
  | nil => simp [find?] at h
  | cons d ds ih =>
    unfold find? at h
    split at h
    · cases h
      change ds.countP _ < (d :: ds).countP (·.storage = d.storage)
      rw [List.countP_cons_of_pos (by simp)]
      exact Nat.lt_succ_self _
    · have := ih h
      rw [List.countP_cons]
      omega

/-- A new declaration is placed behind all that were placed before. -/
theorem index_place_ne {d : Declaration} (h : find? x ds = some v) (hs : d.storage = v.storage) :
    (place ds d).index ≠ v.index := by
  have := index_lt_of_find? h
  rw [← hs] at this
  simp only [place]
  omega

theorem storage_mem_of_find? (h : find? x ds = some v) : ∃ d ∈ ds, d.storage = v.storage := by
  obtain ⟨d, hd, earlier, rfl⟩ := exists_place h
  exact ⟨d, hd, rfl⟩

/-- Names that stand for one place are the same. -/
theorem eq_of_find? (hx : find? x ds = some v) (hy : find? y ds = some u)
    (hs : v.storage = u.storage) (hi : v.index = u.index) : x = y := by
  induction ds with
  | nil => simp [find?] at hx
  | cons d ds ih =>
    unfold find? at hx hy
    by_cases hdx : d.name = x <;> by_cases hdy : d.name = y
    · exact hdx.symm.trans hdy
    · rw [if_pos hdx] at hx
      rw [if_neg hdy] at hy
      cases hx
      exact absurd hi (index_place_ne hy hs)
    · rw [if_neg hdx] at hx
      rw [if_pos hdy] at hy
      cases hy
      exact absurd hi.symm (index_place_ne hx hs.symm)
    · rw [if_neg hdx] at hx
      rw [if_neg hdy] at hy
      exact ih hx hy

theorem find?_append_of_not_mem {as : List Declaration} (h : x ∉ as.map name) :
    find? x (as ++ ds) = find? x ds := by
  induction as with
  | nil => rfl
  | cons d as ih =>
    rw [List.map_cons, List.mem_cons, not_or] at h
    rw [List.cons_append, find?, if_neg (Ne.symm h.1), ih h.2]

/-- A name is found among the latest declarations that have it. -/
theorem storage_mem_of_find?_append {as : List Declaration} (h : find? x (as ++ ds) = some v)
    (hx : x ∈ as.map name) : ∃ d ∈ as, d.storage = v.storage := by
  induction as with
  | nil => simp at hx
  | cons d as ih =>
    rw [List.cons_append, find?] at h
    split at h
    · cases h
      exact ⟨d, by simp, rfl⟩
    · next hne =>
      rw [List.map_cons, List.mem_cons] at hx
      obtain ⟨d', hd, hs⟩ := ih h (hx.resolve_left (Ne.symm hne))
      exact ⟨d', by simp [hd], hs⟩

end Declaration

namespace Tree

open Machine (Reaches Frame Library Memory Leads)

section

variable {x : Text}

theorem argument?_append_singleton (y : Text) (names : List Text) (args : List Machine.Word) :
    argument? x (names ++ [y]) args =
      if y = x then args[names.length]? else argument? x names args := by
  induction names generalizing args with
  | nil => simp [argument?, List.head?_eq_getElem?]
  | cons z names ih =>
    by_cases hy : y = x
    · subst hy
      simp [argument?, ih]
    · simp [argument?, ih, hy, Ne.symm hy]

/-- A parameter stands for the argument at the place that its declaration gives it. -/
theorem argument?_names {latest : List Declaration} (ha : ∀ d ∈ latest, d.storage = .argument)
    {v : Variable} (h : Declaration.find? x latest = some v) (args : List Machine.Word) :
    argument? x (latest.reverse.map Declaration.name) args = args[v.index]? := by
  induction latest with
  | nil => simp [Declaration.find?] at h
  | cons d latest ih =>
    have hd : d.storage = .argument := ha d (by simp)
    have hl : ∀ d ∈ latest, d.storage = .argument := fun d hd => ha d (by simp [hd])
    rw [List.reverse_cons, List.map_append, List.map_singleton, argument?_append_singleton]
    unfold Declaration.find? at h
    split at h
    · next hx =>
      cases h
      -- The latest declaration stands behind all others, and their number is its index.
      have hc : latest.countP (·.storage = .argument) = latest.length :=
        List.countP_eq_length.mpr (by simpa using hl)
      simp [hx, Declaration.place, hd, hc]
    · next hx =>
      rw [if_neg hx]
      exact ih hl h

end

namespace SubroutineDec

variable (d : SubroutineDec) {className : Text} {ofClass : List Declaration} {x : Text} {v : Variable}

section

variable (hc : ∀ x ∈ ofClass, x.storage.ofClass = true)

include hc

/-- A variable of the subroutine does not come from the declarations of the class. -/
theorem find?_of_env (h : (d.env className ofClass).find? x = some v) (hv : v.storage.ofClass = false) :
    Declaration.find? x (d.declarations className).reverse = some v := by
  obtain h | ⟨_, h⟩ := Option.or_eq_some_iff.mp h
  · exact h
  · obtain ⟨y, hy, hs⟩ := Declaration.storage_mem_of_find? h
    have := hc y (List.mem_reverse.mp hy)
    simp [hs, hv] at this

theorem env_distinct : (d.env className ofClass).Distinct := by
  intro x y v u hx hy hv hs hi
  exact Declaration.eq_of_find? (d.find?_of_env hc hx hv) (d.find?_of_env hc hy (hs ▸ hv)) hs hi

/-- The variables start in the places that their declarations give them. -/
theorem holds_initial (args : List Machine.Word) (self : Machine.Word) :
    Frame.Holds (d.env className ofClass) (d.initial args) ⟨args, List.replicate d.locals 0, self⟩ := by
  intro x v h hs
  have hv : v.storage.ofClass = false := by
    obtain hs | hs := hs <;> rw [hs] <;> rfl
  have hf := d.find?_of_env hc h hv
  have hi : v.index < (d.declarations className).reverse.countP (·.storage = v.storage) :=
    Declaration.index_lt_of_find? hf
  rw [declarations, List.reverse_append] at hf
  have hn : x ∈ d.localDeclarations.reverse.map Declaration.name ↔ x ∈ d.localNames := by
    rw [List.map_reverse, List.mem_reverse, map_name_localDeclarations]
  unfold initial
  -- Locals are declared after parameters, so a local hides a parameter of its name.
  by_cases hx : x ∈ d.localNames
  · obtain ⟨y, hy, hs⟩ := Declaration.storage_mem_of_find?_append hf (hn.mpr hx)
    rw [d.storage_of_mem_locals (List.mem_reverse.mp hy)] at hs
    rw [← hs, List.countP_reverse, d.countP_var_declarations className] at hi
    simp [hx, ← hs, Frame.slots, hi]
  · rw [Declaration.find?_append_of_not_mem (mt hn.mp hx)] at hf
    have ha : ∀ y ∈ (d.argumentDeclarations className).reverse, y.storage = .argument :=
      fun y hy => d.storage_of_mem_arguments (List.mem_reverse.mp hy)
    obtain ⟨y, hy, hs⟩ := Declaration.storage_mem_of_find? hf
    rw [ha y hy] at hs
    rw [if_neg hx, ← d.map_name_argumentDeclarations className]
    have := argument?_names ha hf args
    rw [List.reverse_reverse] at this
    rw [this, ← hs]
    rfl

variable {lib : Library} {args stack : List Machine.Word} {m m' : Memory} {self : Machine.Word}

omit hc in
/-- The prologue finds the current object. -/
theorem prologue_reaches {block rest : List Instruction} {P : Machine.State → Prop} {fields : Nat}
    {fr : Frame} {that : Machine.Word} {temp : Machine.Temp}
    (h : d.enter lib fields fr.args fr.this m = some (self, m'))
    (hk : ∀ temp, Reaches lib block P ⟨rest, stack, { fr with this := self }, that, temp, m'⟩) :
    Reaches lib block P ⟨d.kind.prologue fields ++ rest, stack, fr, that, temp, m⟩ := by
  unfold enter at h
  cases hd : d.kind with
  | constructor =>
    simp only [hd, Option.some.injEq] at h
    have hm : ∀ temp, Reaches lib block P ⟨.pop .pointer 0 :: rest,
        (lib "Memory.alloc" [BitVec.ofNat 16 fields] m).1 :: stack, fr, that, temp,
        (lib "Memory.alloc" [BitVec.ofNat 16 fields] m).2⟩ := by
      rw [h]
      exact fun temp => .pop rfl (hk temp)
    exact .push rfl (.call rfl hm)
  | function =>
    simp only [hd, Option.some.injEq] at h
    cases h
    exact hk temp
  | method =>
    simp only [hd] at h
    obtain ⟨w, hw, h⟩ := Option.map_eq_some_iff.mp h
    cases h
    rw [List.head?_eq_getElem?] at hw
    exact .push hw (.pop rfl (hk temp))

/-- A run from the start of a subroutine returns what the subroutine does, with the memory that it
leaves. -/
theorem reaches {r : Option Machine.Word} {this that : Machine.Word} {locals : List Machine.Word}
    {temp : Machine.Temp} (h : d.Exec lib className ofClass args this m r m') :
    Reaches lib (d.code className ofClass) (Machine.Finished stack r m')
      ⟨d.code className ofClass, stack, ⟨args, locals, this⟩, that, temp, m⟩ := by
  obtain ⟨self, m₁, σ, he, hb, rfl⟩ := h
  refine .function (d.prologue_reaches he fun temp => ?_)
  have hs : d.body.code (d.env className ofClass) 0 0 ++ [] <:+ d.code className ofClass := by
    rw [List.append_nil]
    exact Machine.suffix_of_append (Machine.suffix_of_cons List.suffix_rfl)
  have hsim := Statements.simulates (d.env_distinct hc) (d.nodup_labels className ofClass) hb 0 0
  have hrun := hsim (Machine.Finished stack r σ.memory) [] stack _ that temp rfl
    (d.holds_initial hc args self) hs
  rw [List.append_nil] at hrun
  refine hrun fun fr that temp rest _ _ => ?_
  cases r with
  | none => exact .here ⟨rfl, rfl, rfl⟩
  | some v => exact .here ⟨rfl, rfl, rfl⟩

end

end SubroutineDec

end Tree

end Jack
