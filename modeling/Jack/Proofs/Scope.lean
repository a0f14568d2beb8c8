import Jack.Proofs.Translation

/-! Scopes hold what was declared: the latest declaration of a name, at the index that the number of
earlier ones of its storage gives. -/

namespace Jack

namespace Scope

def declareAll (s : Scope) (ds : List Declaration) : Scope :=
  ds.foldl (fun s d => (s.declare d.name d.type d.storage).2) s

theorem count_declare (s : Scope) (name type : Text) (storage st : Storage) :
    (s.declare name type storage).2.count st = s.count st + if storage = st then 1 else 0 := by
  unfold declare count
  by_cases h : storage = st
  · subst h
    simp
  · have : (st == storage) = false := by simpa using Ne.symm h
    simp [List.lookup_cons, this, h]

theorem find?_declare (s : Scope) (name type x : Text) (storage : Storage) :
    (s.declare name type storage).2.find? x =
      if name = x then some ⟨name, type, storage, s.count storage⟩ else s.find? x := by
  unfold declare find?
  by_cases h : name = x
  · subst h
    simp
  · have : (x == name) = false := by simpa using Ne.symm h
    simp [List.lookup_cons, this, h]

theorem declareAll_reverse_cons (s : Scope) (d : Declaration) (earlier : List Declaration) :
    s.declareAll (d :: earlier).reverse =
      ((s.declareAll earlier.reverse).declare d.name d.type d.storage).2 := by
  simp [declareAll]

theorem count_declareAll_reverse (latest : List Declaration) (st : Storage) :
    (declareAll {} latest.reverse).count st = latest.countP (·.storage = st) := by
  induction latest with
  | nil => rfl
  | cons d earlier ih =>
    rw [declareAll_reverse_cons, count_declare, ih, List.countP_cons]
    simp

theorem find?_declareAll_reverse (latest : List Declaration) (x : Text) :
    (declareAll {} latest.reverse).find? x = Declaration.find? x latest := by
  induction latest with
  | nil => rfl
  | cons d earlier ih =>
    rw [declareAll_reverse_cons, find?_declare, ih, count_declareAll_reverse]
    rfl

theorem count_declareAll (ds : List Declaration) (st : Storage) :
    (declareAll {} ds).count st = ds.countP (·.storage = st) := by
  simpa using count_declareAll_reverse ds.reverse st

theorem find?_declareAll (ds : List Declaration) (x : Text) :
    (declareAll {} ds).find? x = Declaration.find? x ds.reverse := by
  simpa using find?_declareAll_reverse ds.reverse x

end Scope

namespace Scopes

def declareAll (s : Scopes) (ds : List Declaration) : Scopes :=
  ds.foldl (fun s d => (s.declare d.name d.type d.storage).2) s

theorem declareAll_append (s : Scopes) (as bs : List Declaration) :
    s.declareAll (as ++ bs) = (s.declareAll as).declareAll bs :=
  List.foldl_append

theorem declareAll_of_ofClass (s : Scopes) {ds : List Declaration}
    (h : ∀ d ∈ ds, d.storage.ofClass = true) :
    s.declareAll ds = { s with ofClass := s.ofClass.declareAll ds } := by
  induction ds generalizing s with
  | nil => rfl
  | cons d ds ih =>
    have hd : d.storage.ofClass = true := h d (by simp)
    change ((s.declare d.name d.type d.storage).2).declareAll ds = _
    rw [ih _ fun d hd => h d (by simp [hd])]
    simp [declare, hd, Scope.declareAll]

theorem declareAll_of_not_ofClass (s : Scopes) {ds : List Declaration}
    (h : ∀ d ∈ ds, d.storage.ofClass = false) :
    s.declareAll ds = { s with ofSubroutine := s.ofSubroutine.declareAll ds } := by
  induction ds generalizing s with
  | nil => rfl
  | cons d ds ih =>
    have hd : d.storage.ofClass = false := h d (by simp)
    change ((s.declare d.name d.type d.storage).2).declareAll ds = _
    rw [ih _ fun d hd => h d (by simp [hd])]
    simp [declare, hd, Scope.declareAll]

end Scopes

end Jack
