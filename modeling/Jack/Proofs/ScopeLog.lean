import Jack.Proofs.Scope
import Mathlib.Data.List.DropRight

/-! The scopes of a class against the log of what was done to them. A variable is numbered by the
declarations of its storage that are in force before it, a name stands for the variable that its last
declaration made, and no two names share a place. -/

namespace Jack

namespace Scopes

/-- What is done to the scopes while a class is read. -/
inductive Operation where
  | startSubroutine
  | declare (d : Declaration)
  deriving DecidableEq

/-- The variable that a declaration makes. -/
def made (s : Scopes) (d : Declaration) : Variable := (s.declare d.name d.type d.storage).1

def apply (s : Scopes) : Operation → Scopes
  | .startSubroutine => s.startSubroutine
  | .declare d => (s.declare d.name d.type d.storage).2

/-- The scopes after the operations of a log, in order. -/
def ofLog (log : List Operation) : Scopes := log.foldl apply {}

theorem ofLog_concat (log : List Operation) (op : Operation) :
    ofLog (log ++ [op]) = (ofLog log).apply op := by
  simp [ofLog]

/-- The operations since the last start of a subroutine. -/
def sinceStart (log : List Operation) : List Operation := log.rtakeWhile (· ≠ .startSubroutine)

def Operation.declares (storage : Storage) : Operation → Bool
  | .startSubroutine => false
  | .declare d => d.storage = storage

/-- How many variables of a storage were declared: statics and fields in the whole log, all else since
the last start of a subroutine. -/
def declared (storage : Storage) (log : List Operation) : Nat :=
  (if storage.ofClass then log else sinceStart log).countP (·.declares storage)

/-- Whether an operation settles what a name stands for in the scope of the class or in that of the
subroutine. To start a subroutine settles it for every name. -/
def Operation.Settles (ofClass : Bool) (x : Text) : Operation → Prop
  | .startSubroutine => ofClass = false
  | .declare d => d.name = x ∧ d.storage.ofClass = ofClass

/-- The last operation that settles a name is the declaration that made the given variable. -/
def LastMade (ofClass : Bool) (x : Text) (log : List Operation) (v : Variable) : Prop :=
  ∃ before d later, log = before ++ .declare d :: later ∧ (Operation.declare d).Settles ofClass x ∧
    (∀ op ∈ later, ¬ op.Settles ofClass x) ∧ v = (ofLog before).made d

/-- The scope of the class or that of the subroutine. -/
def tier (s : Scopes) (ofClass : Bool) : Scope := if ofClass then s.ofClass else s.ofSubroutine

/-! What one operation does. -/

section

variable (s : Scopes) (d : Declaration) (storage : Storage) (ofClass : Bool) (log : List Operation)

theorem count_eq_tier : s.count storage = (s.tier storage.ofClass).count storage := by
  unfold count tier
  cases storage.ofClass <;> rfl

theorem made_eq : s.made d = ⟨d.name, d.type, d.storage, s.count d.storage⟩ := by
  unfold made declare count
  cases d.storage.ofClass <;> rfl

theorem tier_declare : (s.apply (.declare d)).tier ofClass =
    if d.storage.ofClass = ofClass then ((s.tier ofClass).declare d.name d.type d.storage).2
    else s.tier ofClass := by
  change (s.declare d.name d.type d.storage).2.tier ofClass = _
  unfold declare tier
  cases d.storage.ofClass <;> cases ofClass <;> rfl

theorem tier_startSubroutine : (s.apply .startSubroutine).tier ofClass =
    if ofClass then s.tier ofClass else {} := by
  cases ofClass <;> rfl

theorem count_apply_declare : (s.apply (.declare d)).count storage =
    s.count storage + if d.storage = storage then 1 else 0 := by
  rw [count_eq_tier, count_eq_tier, tier_declare]
  by_cases hd : d.storage.ofClass = storage.ofClass
  · rw [if_pos hd, Scope.count_declare]
  · have hne : d.storage ≠ storage := fun he => hd (by rw [he])
    rw [if_neg hd, if_neg hne, Nat.add_zero]

theorem count_apply_startSubroutine : (s.apply .startSubroutine).count storage =
    if storage.ofClass then s.count storage else 0 := by
  rw [count_eq_tier, count_eq_tier, tier_startSubroutine]
  split
  · rfl
  · rfl

theorem declared_concat_declare : declared storage (log ++ [.declare d]) =
    declared storage log + if d.storage = storage then 1 else 0 := by
  have hs : sinceStart (log ++ [.declare d]) = sinceStart log ++ [.declare d] := by
    rw [sinceStart, List.rtakeWhile_concat]
    rfl
  unfold declared
  rw [hs]
  split <;> simp [Operation.declares]

theorem declared_concat_startSubroutine : declared storage (log ++ [.startSubroutine]) =
    if storage.ofClass then declared storage log else 0 := by
  have hs : sinceStart (log ++ [.startSubroutine]) = [] := by
    rw [sinceStart, List.rtakeWhile_concat]
    rfl
  unfold declared
  rw [hs]
  split <;> simp [Operation.declares]

end

/-! What a whole log does. -/

section

variable {ofClass : Bool} {x y : Text} {v w : Variable} {d d' : Declaration}
  {log : List Operation}

theorem count_ofLog (storage : Storage) (log : List Operation) :
    (ofLog log).count storage = declared storage log := by
  induction log using List.reverseRecOn with
  | nil =>
    unfold ofLog declared sinceStart count
    split <;> rfl
  | append_singleton log op ih =>
    rw [ofLog_concat]
    cases op with
    | startSubroutine => rw [count_apply_startSubroutine, declared_concat_startSubroutine, ih]
    | declare d => rw [count_apply_declare, declared_concat_declare, ih]

theorem not_lastMade_nil : ¬ LastMade ofClass x [] v := by
  rintro ⟨before, d, later, he, -⟩
  simp at he

/-- The last operation of a log either settles a name or leaves it as it was. -/
theorem lastMade_concat (op : Operation) : LastMade ofClass x (log ++ [op]) v ↔
    (∃ d, op = .declare d ∧ op.Settles ofClass x ∧ v = (ofLog log).made d) ∨
      ¬ op.Settles ofClass x ∧ LastMade ofClass x log v := by
  constructor
  · rintro ⟨before, d, later, he, hd, hl, hv⟩
    rcases List.eq_nil_or_concat later with rfl | ⟨later, last, rfl⟩
    · obtain ⟨rfl, rfl⟩ := List.append_singleton_inj.mp he
      exact .inl ⟨d, rfl, hd, hv⟩
    · have he' : log ++ [op] = (before ++ .declare d :: later) ++ [last] := by simpa using he
      obtain ⟨rfl, rfl⟩ := List.append_singleton_inj.mp he'
      exact .inr ⟨hl op (by simp), before, d, later, rfl, hd, fun o ho => hl o (by simp [ho]), hv⟩
  · rintro (⟨d, rfl, hd, hv⟩ | ⟨hop, before, d, later, rfl, hd, hl, hv⟩)
    · exact ⟨log, d, [], rfl, hd, by simp, hv⟩
    · refine ⟨before, d, later ++ [op], by simp, hd, fun o ho => ?_, hv⟩
      rcases List.mem_append.mp ho with ho | ho
      · exact hl o ho
      · rw [List.mem_singleton.mp ho]
        exact hop

/-- A scope holds, for every name, what its last declaration there made. -/
theorem find?_tier_iff (ofClass : Bool) (x : Text) (log : List Operation) (v : Variable) :
    ((ofLog log).tier ofClass).find? x = some v ↔ LastMade ofClass x log v := by
  induction log using List.reverseRecOn with
  | nil =>
    have hn : ((ofLog []).tier ofClass).find? x = none := by cases ofClass <;> rfl
    rw [hn]
    exact iff_of_false (by simp) not_lastMade_nil
  | append_singleton log op ih =>
    rw [ofLog_concat, lastMade_concat, ← ih]
    cases op with
    | startSubroutine =>
      rw [tier_startSubroutine]
      cases ofClass <;> simp [Operation.Settles, Scope.find?]
    | declare d =>
      rw [tier_declare]
      by_cases ht : d.storage.ofClass = ofClass
      · -- The scope declares the variable itself, so only the name decides.
        have hc : ((ofLog log).tier ofClass).count d.storage = (ofLog log).count d.storage := by
          rw [count_eq_tier, ht]
        rw [if_pos ht, Scope.find?_declare, hc, ← made_eq]
        by_cases hx : d.name = x <;> simp [Operation.Settles, ht, hx, eq_comm]
      · simp [Operation.Settles, ht]

theorem LastMade.ofClass_eq (h : LastMade ofClass x log v) : v.storage.ofClass = ofClass := by
  obtain ⟨before, d, later, -, hd, -, rfl⟩ := h
  rw [made_eq]
  exact hd.2

/-- A declaration in force counts from there on. -/
theorem declared_lt {before later : List Operation}
    (h : d.storage.ofClass = false → .startSubroutine ∉ later) :
    declared d.storage before < declared d.storage (before ++ .declare d :: later) := by
  induction later using List.reverseRecOn with
  | nil =>
    rw [declared_concat_declare, if_pos rfl]
    omega
  | append_singleton later op ih =>
    have hl := ih fun hc hm => h hc (by simp [hm])
    have he : before ++ .declare d :: (later ++ [op]) = (before ++ .declare d :: later) ++ [op] := by simp
    rw [he]
    cases op with
    | startSubroutine =>
      have hc : d.storage.ofClass = true := by
        by_contra hc
        exact h (by simpa using hc) (by simp)
      rw [declared_concat_startSubroutine, if_pos hc]
      exact hl
    | declare e =>
      rw [declared_concat_declare]
      omega

/-- Nothing behind the declaration of a variable that a name stands for ends its scope. -/
theorem not_mem_of_not_settles {later : List Operation} (hd : d.storage.ofClass = ofClass)
    (hl : ∀ op ∈ later, ¬ op.Settles ofClass x) :
    d.storage.ofClass = false → Operation.startSubroutine ∉ later :=
  fun hc hm => hl _ hm (hd.symm.trans hc)

theorem LastMade.index_lt (h : LastMade ofClass x log v) : v.index < declared v.storage log := by
  obtain ⟨before, d, later, rfl, hd, hl, rfl⟩ := h
  rw [made_eq, count_ofLog]
  exact declared_lt (not_mem_of_not_settles hd.2 hl)

/-- Of two declarations of one storage that are in force, the earlier has the lower index. -/
theorem declared_lt_of_before {before mid later later' : List Operation} (hs : d.storage = d'.storage)
    (hx : x ≠ y) (hd : (Operation.declare d).Settles ofClass x)
    (hd' : (Operation.declare d').Settles ofClass y) (hl : ∀ op ∈ later, ¬ op.Settles ofClass x)
    (hm : .declare d :: later = mid ++ .declare d' :: later') :
    declared d.storage before < declared d'.storage (before ++ mid) := by
  rw [← hs]
  cases mid with
  | nil =>
    obtain ⟨rfl, -⟩ : d = d' ∧ later = later' := by simpa using hm
    exact absurd (hd.1.symm.trans hd'.1) hx
  | cons op mid =>
    obtain ⟨rfl, rfl⟩ : .declare d = op ∧ later = mid ++ .declare d' :: later' := by simpa using hm
    exact declared_lt (not_mem_of_not_settles hd.2 fun o ho => hl o (by simp [ho]))

theorem LastMade.index_ne (hv : LastMade ofClass x log v) (hw : LastMade ofClass y log w)
    (hs : v.storage = w.storage) (hx : x ≠ y) : v.index ≠ w.index := by
  obtain ⟨before, d, later, rfl, hd, hl, rfl⟩ := hv
  obtain ⟨before', d', later', he, hd', hl', rfl⟩ := hw
  simp only [made_eq, count_ofLog] at hs ⊢
  rcases List.append_eq_append_iff.mp he with ⟨mid, rfl, hm⟩ | ⟨mid, rfl, hm⟩
  · exact Nat.ne_of_lt (declared_lt_of_before hs hx hd hd' hl hm)
  · exact Nat.ne_of_gt (declared_lt_of_before hs.symm hx.symm hd' hd hl' hm)

theorem resolve?_eq (s : Scopes) (x : Text) :
    s.resolve? x = ((s.tier false).find? x).or ((s.tier true).find? x) := rfl

/-- A name stands for what its last declaration in the subroutine made, and if there is none, for what its
last declaration in the class made. -/
theorem resolve?_ofLog_iff : (ofLog log).resolve? x = some v ↔
    LastMade false x log v ∨ (∀ u, ¬ LastMade false x log u) ∧ LastMade true x log v := by
  have hn : ((ofLog log).tier false).find? x = none ↔ ∀ u, ¬ LastMade false x log u := by
    simp only [← find?_tier_iff, Option.eq_none_iff_forall_ne_some, ne_eq]
  rw [resolve?_eq, Option.or_eq_some_iff, find?_tier_iff, find?_tier_iff, hn]

theorem exists_lastMade (h : (ofLog log).resolve? x = some v) :
    LastMade v.storage.ofClass x log v := by
  rcases resolve?_ofLog_iff.mp h with h | ⟨-, h⟩
  · rw [h.ofClass_eq]
    exact h
  · rw [h.ofClass_eq]
    exact h

end

/-- The scopes are what the log of the operations says. A declaration makes the variable whose index is
the number of those of its storage that were declared, and as many are counted; a name stands for what its
last declaration made, first in the subroutine and then in the class, and for nothing else; and different
names stand for different places, all of them below the count. -/
theorem ofLog_refines_log (log : List Operation) :
    (∀ d, (ofLog log).made d = ⟨d.name, d.type, d.storage, declared d.storage log⟩) ∧
    (∀ storage, (ofLog log).count storage = declared storage log) ∧
    (∀ x v, (ofLog log).resolve? x = some v ↔
      LastMade false x log v ∨ (∀ u, ¬ LastMade false x log u) ∧ LastMade true x log v) ∧
    (∀ x, (ofLog log).resolve? x = none ↔ ∀ ofClass u, ¬ LastMade ofClass x log u) ∧
    ∀ x y v w, x ≠ y → (ofLog log).resolve? x = some v → (ofLog log).resolve? y = some w →
      v.storage = w.storage →
        v.index ≠ w.index ∧ v.index < (ofLog log).count v.storage ∧
          w.index < (ofLog log).count v.storage := by
  refine ⟨fun d => ?_, fun storage => count_ofLog storage log, fun x v => resolve?_ofLog_iff,
    fun x => ?_, fun x y v w hx hv hw hs => ?_⟩
  · rw [made_eq, count_ofLog]
  · rw [resolve?_eq, Option.or_eq_none_iff, Bool.forall_bool]
    simp only [← find?_tier_iff, Option.eq_none_iff_forall_ne_some, ne_eq]
  · have hv := exists_lastMade hv
    have hw := exists_lastMade hw
    have hi := hw.index_lt
    rw [count_ofLog]
    rw [← hs] at hw hi
    exact ⟨hv.index_ne hw hs hx, hv.index_lt, hi⟩

end Scopes

end Jack
