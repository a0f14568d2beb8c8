import Jack.Proofs.Path
import Mathlib.Data.List.Basic
import Mathlib.Logic.Function.Iterate

/-! The directories above a place. The parent of a cleaned path from the root is that path without its last
component, and the root is its own parent, so going up ends at the root. -/

namespace Jack

namespace Text

theorem not_mem_of_mem_splitOn {b : UInt8} {s piece : Text} (h : piece ∈ splitOn b s) : b ∉ piece := by
  induction s generalizing piece with
  | nil =>
    rw [List.mem_singleton.mp h]
    exact List.not_mem_nil
  | cons c rest ih =>
    rw [splitOn] at h
    split at h
    · rcases List.mem_cons.mp h with rfl | h
      · exact List.not_mem_nil
      · exact ih h
    · next hc =>
      have hb : b ≠ c := fun he => hc (by rw [he]; exact beq_self_eq_true c)
      split at h
      · rw [List.mem_singleton.mp h, List.mem_singleton]
        exact hb
      · next first others hs =>
        rcases List.mem_cons.mp h with rfl | h
        · rw [List.mem_cons, not_or]
          exact ⟨hb, ih (by rw [hs]; exact List.mem_cons_self)⟩
        · exact ih (by rw [hs]; exact List.mem_cons_of_mem _ h)

/-- The separator stands behind every piece but the last. -/
theorem joinWith_concat (separator : Text) (pieces : List Text) (last : Text) :
    joinWith separator (pieces ++ [last]) = pieces.flatMap (· ++ separator) ++ last := by
  induction pieces with
  | nil => simp [joinWith]
  | cons p pieces ih =>
    cases pieces with
    | nil => simp [joinWith]
    | cons q pieces =>
      rw [List.cons_append, List.cons_append, joinWith_cons_cons, ← List.cons_append, ih]
      simp only [List.flatMap_cons, List.append_assoc]

theorem splitOn_flatMap_append {b : UInt8} {pieces : List Text} {last : Text} (h : ∀ p ∈ pieces, b ∉ p)
    (hl : b ∉ last) : splitOn b (pieces.flatMap (· ++ [b]) ++ last) = pieces ++ [last] := by
  induction pieces with
  | nil => exact splitOn_of_not_mem hl
  | cons p pieces ih =>
    rw [List.flatMap_cons, List.append_assoc, List.append_assoc, List.singleton_append,
      splitOn_append (h p (by simp)), ih fun q hq => h q (by simp [hq])]
    rfl

end Text

namespace Path

/-- A name that cleaning keeps: it is not empty, and it is not one of the names with a meaning of their own. -/
structure Component (c : Text) : Prop where
  nonempty : c ≠ []
  slashless : Byte.slash ∉ c
  ne_dot : c ≠ "."
  ne_dots : c ≠ ".."

theorem cleanStep_component {c : Text} (h : Component c) (rooted : Bool) (kept : List Text) :
    cleanStep rooted kept c = c :: kept := by
  have he : c.isEmpty = false := List.isEmpty_eq_false_iff.mpr h.nonempty
  simp [cleanStep, he, h.ne_dot, h.ne_dots]

theorem foldl_cleanStep {cs : List Text} (h : ∀ c ∈ cs, Component c) (rooted : Bool) (kept : List Text) :
    cs.foldl (cleanStep rooted) kept = cs.reverse ++ kept := by
  induction cs generalizing kept with
  | nil => rfl
  | cons c cs ih =>
    rw [List.foldl_cons, cleanStep_component (h c (by simp)), ih fun d hd => h d (by simp [hd]),
      List.reverse_cons, List.append_assoc, List.singleton_append]

/-- From the root, one step of cleaning keeps components only. -/
theorem component_of_mem_cleanStep {kept : List Text} {c : Text} (hk : ∀ d ∈ kept, Component d)
    (hc : Byte.slash ∉ c) : ∀ d ∈ cleanStep true kept c, Component d := by
  unfold cleanStep
  split
  · exact hk
  · next hn =>
    simp only [Bool.or_eq_true, List.isEmpty_iff, beq_iff_eq, not_or] at hn
    split
    · cases kept with
      | nil => exact fun d hd => absurd hd List.not_mem_nil
      | cons last before =>
        have hl : (last == "..") = false := beq_false_of_ne (hk last (by simp)).ne_dots
        dsimp only
        rw [hl]
        exact fun d hd => hk d (List.mem_cons_of_mem _ hd)
    · next hd =>
      intro d hm
      rcases List.mem_cons.mp hm with rfl | hm
      · exact ⟨hn.1, hc, hn.2, fun he => hd (by rw [he]; decide)⟩
      · exact hk d hm

theorem component_of_mem_parts {p : Text} (h : isAbsolute p = true) : ∀ c ∈ parts p, Component c := by
  have hs : ∀ c ∈ Text.splitOn Byte.slash p, Byte.slash ∉ c := fun c hc => Text.not_mem_of_mem_splitOn hc
  rw [parts, h]
  -- the invariant of the fold: what is kept so far are components
  generalize Text.splitOn Byte.slash p = pieces at hs
  have hf : ∀ kept : List Text, (∀ d ∈ kept, Component d) →
      ∀ d ∈ pieces.foldl (cleanStep true) kept, Component d := by
    induction pieces with
    | nil => exact fun kept hk => hk
    | cons c pieces ih =>
      intro kept hk
      exact ih (fun d hd => hs d (by simp [hd])) _ (component_of_mem_cleanStep hk (hs c (by simp)))
  exact hf [] fun d hd => absurd hd List.not_mem_nil

/-! Cleaned paths and their parents. -/

section

variable {c : Text} {cs above : List Text}

/-- The path from the root to a directory, with a slash behind it. -/
def slashed (cs : List Text) : Text := Byte.slash :: cs.reverse.flatMap (· ++ [Byte.slash])

theorem ofParts_cons (c : Text) (above : List Text) : ofParts (c :: above) = slashed above ++ c := by
  have hs : Text.ofString "/" = [Byte.slash] := by decide
  rw [ofParts, List.reverse_cons, hs, Text.joinWith_concat, slashed, List.cons_append]

/-- Behind the directories above it, the last name of a path takes the last step of cleaning. -/
theorem parts_slashed_append (h : ∀ c ∈ above, Component c) (hc : Byte.slash ∉ c) :
    parts (slashed above ++ c) = cleanStep true above c := by
  have hp : ∀ d ∈ above.reverse, Component d := fun d hd => h d (List.mem_reverse.mp hd)
  have hs : Text.splitOn Byte.slash (slashed above ++ c) = [] :: (above.reverse ++ [c]) := by
    have hn : Byte.slash ∉ ([] : Text) := List.not_mem_nil
    rw [slashed, List.cons_append]
    exact (Text.splitOn_append hn _).trans
      (congrArg _ (Text.splitOn_flatMap_append (fun d hd => (hp d hd).slashless) hc))
  have ha : isAbsolute (slashed above ++ c) = true := rfl
  have he : cleanStep true [] [] = [] := rfl
  rw [parts, hs, ha, List.foldl_cons, he, List.foldl_append, foldl_cleanStep hp, List.reverse_reverse,
    List.append_nil, List.foldl_cons, List.foldl_nil]

/-- Nothing is left out of a cleaned path. -/
theorem parts_ofParts (h : ∀ c ∈ cs, Component c) : parts (ofParts cs) = cs := by
  cases cs with
  | nil => decide
  | cons c above =>
    have hc := h c (by simp)
    rw [ofParts_cons, parts_slashed_append (fun d hd => h d (by simp [hd])) hc.slashless,
      cleanStep_component hc]

theorem exists_slashed (cs : List Text) : ∃ front, slashed cs = front ++ [Byte.slash] := by
  cases cs with
  | nil => exact ⟨[], rfl⟩
  | cons c above =>
    refine ⟨slashed above ++ c, ?_⟩
    simp [slashed]

/-- The parent of the root is the root. -/
theorem parent_ofParts_nil : parent (ofParts []) = ofParts [] := by decide

/-- The parent of any other cleaned path is the path without its last component. -/
theorem parent_ofParts_cons (h : ∀ d ∈ c :: above, Component d) :
    parent (ofParts (c :: above)) = ofParts above := by
  have ha : ∀ d ∈ above, Component d := fun d hd => h d (by simp [hd])
  have hd : ((slashed above ++ c).reverse.dropWhile (· != Byte.slash)).reverse = slashed above := by
    obtain ⟨front, hf⟩ := exists_slashed above
    have hw : ∀ b ∈ c.reverse, (b != Byte.slash) = true := by
      intro b hb
      have hc := (h c (by simp)).slashless
      exact bne_iff_ne.mpr fun he => hc (he ▸ List.mem_reverse.mp hb)
    have hh : ∀ b ∈ (Byte.slash :: front.reverse).head?, (b != Byte.slash) = false := by simp
    have hr : (slashed above ++ c).reverse = c.reverse ++ Byte.slash :: front.reverse := by
      rw [hf]
      simp
    rw [hr, (Text.takeWhile_append_of_head hw hh).2, hf]
    simp
  have hp : parts (slashed above) = above := by
    have hn := parts_slashed_append ha (c := []) List.not_mem_nil
    rwa [List.append_nil] at hn
  rw [parent, ofParts_cons, hd, clean, hp]
  rfl

/-- Going up `i` times leaves the last `i` components out. -/
theorem parent_iterate (h : ∀ c ∈ cs, Component c) (i : Nat) :
    parent^[i] (ofParts cs) = ofParts (cs.drop i) := by
  induction i generalizing cs with
  | zero => rfl
  | succ i ih =>
    rw [Function.iterate_succ_apply]
    cases cs with
    | nil => rw [parent_ofParts_nil, ih h, List.drop_nil, List.drop_nil]
    | cons c above => rw [parent_ofParts_cons h, ih fun d hd => h d (by simp [hd]), List.drop_succ_cons]

theorem upwards_eq (cs : List Text) : upwards cs = (List.range (cs.length + 1)).map fun i => cs.drop i := by
  induction cs with
  | nil => rfl
  | cons c above ih =>
    rw [upwards, ih, List.length_cons, List.range_succ_eq_map (n := above.length + 1), List.map_cons,
      List.map_map]
    rfl

theorem exists_clean {p : Text} (h : isAbsolute p = true) :
    ∃ cs, clean p = ofParts cs ∧ ∀ c ∈ cs, Component c :=
  ⟨parts p, by rw [clean, if_pos h], component_of_mem_parts h⟩

theorem exists_join {p : Text} (h : isAbsolute p = true) (q : Text) :
    ∃ cs, join [p, q] = ofParts cs ∧ ∀ c ∈ cs, Component c := by
  cases p with
  | nil => cases h
  | cons b p =>
    have hj : isAbsolute (Text.joinWith "/" [b :: p, q]) = true := by
      rw [Text.joinWith_cons_cons]
      exact h
    exact exists_clean hj

/-- A path that is made absolute is a cleaned one. -/
theorem exists_absolute {workingDirectory : Text} (h : isAbsolute workingDirectory = true) (p : Text) :
    ∃ cs, absolute workingDirectory p = ofParts cs ∧ ∀ c ∈ cs, Component c := by
  rw [absolute]
  split
  · next hp => exact exists_clean hp
  · exact exists_join h p

end

end Path

end Jack
