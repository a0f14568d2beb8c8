import Jack.Path
import Jack.Proofs.Text

/-! Paths and their extensions: a path is its stem and its extension, and another ending changes the last of
its names alone. -/

namespace Jack

/-- A text with another behind it is cut as it is alone, if there is nothing to cut at in the other. -/
theorem Text.exists_splitOn_append (b : UInt8) (s : Text) :
    ∃ names last, ∀ e : Text, b ∉ e → splitOn b (s ++ e) = names ++ [last ++ e] := by
  induction s with
  | nil => exact ⟨[], [], fun e he => splitOn_of_not_mem he⟩
  | cons c s ih =>
    obtain ⟨names, last, h⟩ := ih
    by_cases hc : c = b
    · refine ⟨[] :: names, last, fun e he => ?_⟩
      rw [List.cons_append, splitOn, if_pos (by simpa using hc), h e he, List.cons_append]
    · have hb : ¬ (c == b) = true := by simpa using hc
      cases names with
      | nil =>
        refine ⟨[], c :: last, fun e he => ?_⟩
        rw [List.cons_append, splitOn, if_neg hb, h e he]
        rfl
      | cons name names =>
        refine ⟨(c :: name) :: names, last, fun e he => ?_⟩
        rw [List.cons_append, splitOn, if_neg hb, h e he]
        rfl

namespace Path

/-- What can stand behind the stem of a path. -/
structure Ending (e : Text) : Prop where
  nonempty : e ≠ []
  slashless : Byte.slash ∉ e

/-- An extension: a dot, and no other dot and no slash behind it. -/
structure Plain (e : Text) : Prop where
  dotted : ∃ rest, e = Byte.dot :: rest ∧ Byte.dot ∉ rest
  slashless : Byte.slash ∉ e

theorem Plain.ending {e : Text} (h : Plain e) : Ending e where
  nonempty := by
    obtain ⟨rest, rfl, -⟩ := h.dotted
    exact List.cons_ne_nil _ _
  slashless := h.slashless

/-- An extension is found where it stands. -/
theorem extension_append {e : Text} (h : Plain e) (s : Text) : extension (s ++ e) = e := by
  obtain ⟨rest, rfl, hd⟩ := h.dotted
  have hs : Byte.slash ∉ rest := fun hm => h.slashless (List.mem_cons_of_mem _ hm)
  have hr : (s ++ Byte.dot :: rest).reverse = rest.reverse ++ Byte.dot :: s.reverse := by simp
  have hw : ∀ b ∈ rest.reverse, (b != Byte.slash && b != Byte.dot) = true := by
    intro b hb
    have hb := List.mem_reverse.mp hb
    have h1 : b ≠ Byte.slash := fun he => hs (he ▸ hb)
    have h2 : b ≠ Byte.dot := fun he => hd (he ▸ hb)
    simp [h1, h2]
  have hh : ∀ b ∈ (Byte.dot :: s.reverse).head?, (b != Byte.slash && b != Byte.dot) = false := by
    simp
  obtain ⟨ht, hdrop⟩ := Text.takeWhile_append_of_head hw hh
  unfold extension
  rw [hr, ht, hdrop, List.reverse_reverse]
  rfl

theorem exists_append_extension (p : Text) : ∃ front, p = front ++ extension p := by
  have hp : p.reverse = p.reverse.takeWhile (fun b => b != Byte.slash && b != Byte.dot) ++
      p.reverse.dropWhile (fun b => b != Byte.slash && b != Byte.dot) :=
    List.takeWhile_append_dropWhile.symm
  unfold extension
  split
  next d hd =>
    refine ⟨d.reverse, ?_⟩
    rw [hd] at hp
    simpa using congrArg List.reverse hp
  next => exact ⟨p, by simp⟩

theorem stem_append_extension (p : Text) : stem p ++ extension p = p := by
  obtain ⟨front, hp⟩ := exists_append_extension p
  have hl : p.length - (extension p).length = front.length := by
    have hl := congrArg List.length hp
    rw [List.length_append] at hl
    omega
  have hs : stem p = front := by
    unfold stem
    rw [hl]
    conv_lhs => rw [hp]
    exact List.take_left
  rw [hs, ← hp]

theorem isAbsolute_append {e : Text} (h : Ending e) (s : Text) : isAbsolute (s ++ e) = isAbsolute s := by
  cases s with
  | cons b s => rfl
  | nil =>
    cases e with
    | nil => exact absurd rfl h.nonempty
    | cons b e =>
      have hb : b ≠ Byte.slash := fun hb => h.slashless (hb ▸ List.mem_cons_self)
      simp [isAbsolute, hb]

end Path

end Jack
