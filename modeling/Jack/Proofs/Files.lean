import Jack.Files.Host
import Jack.Proofs.Path

/-! File systems without links: where a path leads, and that it leads there still when files were written. -/

namespace Jack.FileSystem

theorem lookup_filter_ne {p q : Place} (h : q ≠ p) (entries : List (Place × Entry)) :
    (entries.filter (·.1 != p)).lookup q = entries.lookup q := by
  induction entries with
  | nil => rfl
  | cons e entries ih =>
    obtain ⟨r, e⟩ := e
    by_cases hr : r = p
    · have hq : (q == r) = false := by simpa [hr] using h
      rw [List.filter_cons_of_neg (by simpa using hr), ih, List.lookup_cons, hq]
    · rw [List.filter_cons_of_pos (by simpa using hr), List.lookup_cons, List.lookup_cons, ih]

theorem entry?_put (fs : FileSystem) {p : Place} (hp : p ≠ []) (e : Entry) (q : Place) :
    entry? (fs.put p e) q = if q = p then some e else fs.entry? q := by
  unfold entry? put
  by_cases hq : q = []
  · subst hq
    simp [Ne.symm hp]
  · have he : q.isEmpty = false := by simpa using hq
    rw [he, List.lookup_cons]
    by_cases hqp : q = p
    · simp [hqp]
    · have hb : (q == p) = false := by simpa using hqp
      rw [hb, if_neg hqp]
      exact lookup_filter_ne hqp fs.entries

/-- Without symbolic links. -/
def Linkless (fs : FileSystem) : Prop := ∀ p target, fs.entry? p ≠ some (.link target)

/-- Files may differ, but there are the same directories, and no links. -/
structure SameDirectories (fs fs' : FileSystem) : Prop where
  linkless : fs'.Linkless
  directory_iff : ∀ p, fs'.entry? p = some .directory ↔ fs.entry? p = some .directory

section

variable {fs fs' : FileSystem} {dir d : Place} {names : List Text} {name : Text}

theorem Linkless.sameDirectories (h : fs.Linkless) : SameDirectories fs fs := ⟨h, fun _ => Iff.rfl⟩

theorem walk_ne_link (h : fs.Linkless) (dir d : Place) (names : List Text) (target : Text)
    (rest : List Text) : fs.walk dir names ≠ .link d target rest := by
  fun_induction walk fs dir names with
  | case6 dir name rest _ _ _ t he => exact absurd he (h _ t)
  | _ => simp_all

theorem follow_eq_walk (h : fs.Linkless) (links : Nat) (dir : Place) (names : List Text) :
    fs.follow links dir names = fs.walk dir names := by
  unfold follow
  split
  next hw => exact absurd hw (walk_ne_link h _ _ _ _ _)
  next hw => exact absurd hw (walk_ne_link h _ _ _ _ _)
  next => rfl

/-- A walk that came to a directory goes on from it, also when files were written. -/
theorem SameDirectories.walk_append (hs : SameDirectories fs fs') (h : fs.walk dir names = .directory d)
    (rest : List Text) : fs'.walk dir (names ++ rest) = fs'.walk d rest := by
  fun_induction walk fs dir names with
  | case1 dir =>
    cases h
    rfl
  | case2 dir name names hn ih =>
    rw [List.cons_append, walk, if_pos hn]
    exact ih h
  | case3 dir name names hn hp ih =>
    rw [List.cons_append, walk, if_neg hn, if_pos hp]
    exact ih h
  | case5 dir name names hn hp hl he ih =>
    rw [List.cons_append, walk, if_neg hn, if_neg hp, if_neg hl]
    simp only [(hs.directory_iff _).mpr he]
    exact ih h
  | _ => simp_all

/-- One name either leads to a directory, from which the walk goes on, or ends it. A file that is not the last
name of a path is followed by a slash. -/
theorem walk_cons (fs : FileSystem) (dir : Place) (name : Text) :
    (∃ d, ∀ rest, fs.walk dir (name :: rest) = fs.walk d rest) ∨
      ∀ rest p data, rest ≠ [] → fs.walk dir (name :: rest) ≠ .file p data false := by
  by_cases hn : (name.isEmpty || name == ".") = true
  · exact .inl ⟨dir, fun rest => by rw [walk, if_pos hn]⟩
  by_cases hp : (name == "..") = true
  · exact .inl ⟨dir.tail, fun rest => by rw [walk, if_neg hn, if_pos hp]⟩
  by_cases hl : maxName < name.length
  · refine .inr fun rest p data _ => ?_
    rw [walk, if_neg hn, if_neg hp, if_pos hl]
    exact Stop.noConfusion
  cases he : fs.entry? (name :: dir) with
  | none =>
    refine .inr fun rest p data _ => ?_
    rw [walk, if_neg hn, if_neg hp, if_neg hl]
    simp only [he]
    split <;> exact Stop.noConfusion
  | some e =>
    cases e with
    | directory =>
      refine .inl ⟨name :: dir, fun rest => ?_⟩
      rw [walk, if_neg hn, if_neg hp, if_neg hl]
      simp only [he]
    | link target =>
      refine .inr fun rest p data _ => ?_
      rw [walk, if_neg hn, if_neg hp, if_neg hl]
      simp only [he]
      exact Stop.noConfusion
    | file bytes =>
      refine .inr fun rest p data hr => ?_
      rw [walk, if_neg hn, if_neg hp, if_neg hl]
      simp only [he]
      split <;> simp [hr]

/-- What a walk finds at a name of a directory, if that is its last. -/
def stopAt (fs : FileSystem) (dir : Place) (name : Text) : Stop :=
  match fs.entry? (name :: dir) with
  | some .directory => .directory (name :: dir)
  | some (.link target) => .link dir target []
  | some (.file data) => .file (name :: dir) data false
  | none => .absent (name :: dir) false

/-- A last name that is not looked up leads to a directory or to nothing. -/
theorem walk_name (dir : Place) (name : Text) :
    (∃ stop, (∀ p data, stop ≠ .file p data false ∧ stop ≠ .absent p false) ∧
        ∀ fs : FileSystem, fs.walk dir [name] = stop) ∨
      ∀ fs : FileSystem, fs.walk dir [name] = fs.stopAt dir name := by
  by_cases hn : (name.isEmpty || name == ".") = true
  · refine .inl ⟨.directory dir, by simp, fun fs => ?_⟩
    rw [walk, if_pos hn, walk]
  by_cases hp : (name == "..") = true
  · refine .inl ⟨.directory dir.tail, by simp, fun fs => ?_⟩
    rw [walk, if_neg hn, if_pos hp, walk]
  by_cases hl : maxName < name.length
  · refine .inl ⟨.blocked .nameTooLong, by simp, fun fs => ?_⟩
    rw [walk, if_neg hn, if_neg hp, if_pos hl]
  · refine .inr fun fs => ?_
    rw [walk, if_neg hn, if_neg hp, if_neg hl, stopAt]
    rfl

/-- A walk to a file comes to the directory that holds it before its last name. -/
theorem exists_walk_of_file {p : Place} {data : Text}
    (h : fs.walk dir (names ++ [name]) = .file p data false) :
    ∃ d, fs.walk dir names = .directory d ∧ fs.walk d [name] = .file p data false := by
  induction names generalizing dir with
  | nil => exact ⟨dir, rfl, h⟩
  | cons first names ih =>
    rcases walk_cons fs dir first with ⟨d, hd⟩ | hd
    · rw [List.cons_append, hd] at h
      rw [hd]
      exact ih h
    · exact absurd h (hd _ _ _ (by simp))

end

/-- Paths that start with `stem` lead to names that start with `base` in the directory `dir`. -/
structure Leads (fs : FileSystem) (cwd : Place) (stem : Text) (dir : Place) (base : Text) : Prop where
  intro ::
  exists_names : ∃ names,
    (∀ e : Text, Byte.slash ∉ e → Text.splitOn Byte.slash (stem ++ e) = names ++ [base ++ e]) ∧
      fs.walk (if Path.isAbsolute stem then [] else cwd) names = .directory dir

/-- Where writing to a path puts the file. -/
def target (fs : FileSystem) (cwd : Place) (path : Text) : Except Fault.Reason Place :=
  match fs.find cwd path with
  | .directory _ | .file _ _ true | .absent _ true => .error .isDirectory
  | .file p _ false | .absent p false => .ok p
  | .link _ _ _ => .error .tooManyLinks
  | .blocked reason => .error reason

theorem update_eq_target (fs : FileSystem) (cwd : Place) (path data : Text) :
    fs.update cwd path (fun _ => data) =
      ((fs.target cwd path).map fun p => fs.put p (.file data)).mapError (⟨.open, path, ·⟩) := by
  unfold update target
  split <;> simp_all [Except.map, Except.mapError]

section

variable {fs fs' : FileSystem} {cwd dir p : Place} {stem base e : Text}

/-- Where a path with the given ending leads is settled by its text alone, except for what stands at its
last name. -/
theorem Leads.find_eq (h : Leads fs cwd stem dir base) (he : Path.Ending e) :
    (∃ stop, (∀ p data, stop ≠ .file p data false ∧ stop ≠ .absent p false) ∧
        ∀ fs', SameDirectories fs fs' → fs'.find cwd (stem ++ e) = stop) ∨
      ∀ fs', SameDirectories fs fs' → fs'.find cwd (stem ++ e) = fs'.stopAt dir (base ++ e) := by
  obtain ⟨names, hn, hw⟩ := h.exists_names
  have hne : ¬ (stem ++ e).isEmpty = true := by simp [he.nonempty]
  by_cases hz : (stem ++ e).contains 0 = true
  · refine .inl ⟨.blocked .invalidArgument, by simp, fun fs' hs => ?_⟩
    rw [find, if_pos hz]
  by_cases hl : maxPath < (stem ++ e).length
  · refine .inl ⟨.blocked .nameTooLong, by simp, fun fs' hs => ?_⟩
    rw [find, if_neg hz, if_neg hne, if_pos hl]
  have hf : ∀ fs', SameDirectories fs fs' → fs'.find cwd (stem ++ e) = fs'.walk dir [base ++ e] := by
    intro fs' hs
    rw [find, if_neg hz, if_neg hne, if_neg hl, follow_eq_walk hs.linkless, Path.isAbsolute_append he,
      hn e he.slashless, hs.walk_append hw]
  rcases walk_name dir (base ++ e) with ⟨stop, hstop, hd⟩ | hd
  · exact .inl ⟨stop, hstop, fun fs' hs => by rw [hf fs' hs, hd]⟩
  · exact .inr fun fs' hs => by rw [hf fs' hs, hd]

theorem target_of_stopAt {path name : Text} (hl : fs.Linkless)
    (hf : fs.find cwd path = fs.stopAt dir name) :
    fs.target cwd path =
      if fs.entry? (name :: dir) = some .directory then .error .isDirectory else .ok (name :: dir) := by
  unfold target
  rw [hf, stopAt]
  cases he : fs.entry? (name :: dir) with
  | none => rfl
  | some entry =>
    cases entry with
    | directory => rfl
    | link target => exact absurd he (hl _ target)
    | file data => rfl

theorem target_ne_ok {path : Text} {stop : Stop} (hf : fs.find cwd path = stop)
    (hstop : ∀ p data, stop ≠ .file p data false ∧ stop ≠ .absent p false) (p : Place) :
    fs.target cwd path ≠ .ok p := by
  unfold target
  rw [hf]
  split
  case h_4 q data => exact absurd rfl (hstop q data).1
  case h_5 q => exact absurd rfl (hstop q []).2
  all_goals exact nofun

/-- Writing to a path goes to the same place when files were written. -/
theorem Leads.target_eq (h : Leads fs cwd stem dir base) (hl : fs.Linkless) (hs : SameDirectories fs fs')
    (he : Path.Ending e) : fs'.target cwd (stem ++ e) = fs.target cwd (stem ++ e) := by
  rcases h.find_eq he with ⟨stop, -, hf⟩ | hf
  · unfold target
    rw [hf fs' hs, hf fs hl.sameDirectories]
  · rw [target_of_stopAt hs.linkless (hf fs' hs), target_of_stopAt hl (hf fs hl.sameDirectories)]
    simp only [hs.directory_iff]

/-- What is written goes to the last name in its directory, where no directory stands. -/
theorem Leads.target_ok (h : Leads fs cwd stem dir base) (hl : fs.Linkless) (he : Path.Ending e)
    (ht : fs.target cwd (stem ++ e) = .ok p) :
    p = (base ++ e) :: dir ∧ fs.entry? p ≠ some .directory ∧
      ∀ fs', SameDirectories fs fs' → fs'.find cwd (stem ++ e) = fs'.stopAt dir (base ++ e) := by
  rcases h.find_eq he with ⟨stop, hstop, hf⟩ | hf
  · exact absurd ht (target_ne_ok (hf fs hl.sameDirectories) hstop p)
  · rw [target_of_stopAt hl (hf fs hl.sameDirectories)] at ht
    split at ht
    · cases ht
    next hd =>
      cases ht
      exact ⟨rfl, hd, hf⟩

/-- What stands at the place to which writing goes is what reading gives. -/
theorem Leads.read_eq {data : Text} (h : Leads fs cwd stem dir base) (hl : fs.Linkless)
    (hs : SameDirectories fs fs') (he : Path.Ending e) (ht : fs.target cwd (stem ++ e) = .ok p)
    (hp : fs'.entry? p = some (.file data)) : fs'.read cwd (stem ++ e) = .ok data := by
  obtain ⟨rfl, -, hf⟩ := h.target_ok hl he ht
  unfold read
  rw [hf fs' hs, stopAt, hp]

/-- A path to a file leads to a name of a directory, and so do the paths that share its stem. -/
theorem exists_leads (hl : fs.Linkless) (he : Path.Ending e)
    (hst : fs.stat cwd (stem ++ e) = .ok .file) :
    ∃ dir base data, Leads fs cwd stem dir base ∧ fs.target cwd (stem ++ e) = .ok ((base ++ e) :: dir) ∧
      fs.entry? ((base ++ e) :: dir) = some (.file data) := by
  obtain ⟨names, base, hn⟩ := Text.exists_splitOn_append Byte.slash stem
  obtain ⟨p, data, hf⟩ : ∃ p data, fs.find cwd (stem ++ e) = .file p data false := by
    unfold stat at hst
    split at hst
    case h_2 p data hf => exact ⟨p, data, hf⟩
    all_goals cases hst
  have hw : fs.walk (if Path.isAbsolute stem then [] else cwd) (names ++ [base ++ e]) =
      .file p data false := by
    unfold find at hf
    split at hf
    · cases hf
    split at hf
    · cases hf
    split at hf
    · cases hf
    rw [follow_eq_walk hl, Path.isAbsolute_append he, hn e he.slashless] at hf
    exact hf
  obtain ⟨dir, hd, hb⟩ := exists_walk_of_file hw
  have hleads : Leads fs cwd stem dir base := ⟨⟨names, hn, hd⟩⟩
  have ht : fs.target cwd (stem ++ e) = .ok p := by
    unfold target
    rw [hf]
  obtain ⟨rfl, -, hstop⟩ := hleads.target_ok hl he ht
  have hx := (hstop fs hl.sameDirectories).symm.trans hf
  refine ⟨dir, base, data, hleads, ht, ?_⟩
  unfold stopAt at hx
  split at hx
  case h_3 bytes hbytes =>
    cases hx
    exact hbytes
  all_goals cases hx

end

/-- A file as it is written. -/
structure Write where
  place : Place
  data : Text

/-- The file system after writes, in order. -/
def putAll (fs : FileSystem) (writes : List Write) : FileSystem :=
  writes.foldl (fun fs w => fs.put w.place (.file w.data)) fs

/-- What writes leave at a place: the last one counts. -/
def written (p : Place) : List Write → Option Text
  | [] => none
  | w :: writes => (written p writes).or (if w.place = p then some w.data else none)

theorem written_cons_iff {p : Place} {w : Write} {writes : List Write} {x : Text} :
    written p (w :: writes) = some x ↔
      written p writes = some x ∨ written p writes = none ∧ w.place = p ∧ w.data = x := by
  rw [written, Option.or_eq_some_iff]
  by_cases hp : w.place = p <;> simp [hp]

theorem exists_written {w : Write} {writes : List Write} (h : w ∈ writes) :
    ∃ x, written w.place writes = some x := by
  induction writes with
  | nil => cases h
  | cons v writes ih =>
    cases hx : written w.place writes with
    | some x => exact ⟨x, written_cons_iff.mpr (.inl hx)⟩
    | none =>
      rcases List.mem_cons.mp h with rfl | h
      · exact ⟨_, written_cons_iff.mpr (.inr ⟨hx, rfl, rfl⟩)⟩
      · obtain ⟨x, hy⟩ := ih h
        rw [hx] at hy
        cases hy

theorem putAll_append (fs : FileSystem) (a b : List Write) : fs.putAll (a ++ b) = (fs.putAll a).putAll b :=
  List.foldl_append

theorem written_append (p : Place) (a b : List Write) :
    written p (a ++ b) = (written p b).or (written p a) := by
  induction a with
  | nil => exact Option.or_none.symm
  | cons w a ih => rw [List.cons_append, written, written, ih, Option.or_assoc]

theorem entry?_putAll (fs : FileSystem) {writes : List Write} (h : ∀ w ∈ writes, w.place ≠ [])
    (p : Place) : entry? (fs.putAll writes) p = (((written p writes).map .file).or <| fs.entry? p) := by
  induction writes generalizing fs with
  | nil => rfl
  | cons w writes ih =>
    have hw := ih (fs.put w.place (.file w.data)) fun v hv => h v (List.mem_cons_of_mem _ hv)
    change entry? ((fs.put w.place (.file w.data)).putAll writes) p = _
    rw [hw, entry?_put fs (h w List.mem_cons_self), written]
    cases hx : written p writes with
    | some x => rfl
    | none =>
      by_cases hp : w.place = p
      · simp [hp]
      · simp [hp, Ne.symm hp]

/-- Where those who write to a place write the same, it does not matter who is last. -/
theorem written_flatMap_iff {α : Type} {jobs : List α} {f : α → List Write} {p : Place} {x : Text}
    (agree : ∀ a ∈ jobs, ∀ b ∈ jobs, ∀ x y, written p (f a) = some x → written p (f b) = some y → x = y) :
    written p (jobs.flatMap f) = some x ↔ ∃ a ∈ jobs, written p (f a) = some x := by
  induction jobs generalizing x with
  | nil => simp [written]
  | cons a jobs ih =>
    have ih : ∀ {x}, written p (jobs.flatMap f) = some x ↔ ∃ a ∈ jobs, written p (f a) = some x :=
      ih fun a ha b hb => agree a (List.mem_cons_of_mem _ ha) b (List.mem_cons_of_mem _ hb)
    rw [List.flatMap_cons, written_append, Option.or_eq_some_iff, ih]
    constructor
    · rintro (⟨b, hb, hx⟩ | ⟨-, hx⟩)
      · exact ⟨b, List.mem_cons_of_mem _ hb, hx⟩
      · exact ⟨a, List.mem_cons_self, hx⟩
    · rintro ⟨b, hb, hx⟩
      rcases List.mem_cons.mp hb with rfl | hb
      · cases hl : written p (jobs.flatMap f) with
        | none => exact .inr ⟨rfl, hx⟩
        | some y =>
          obtain ⟨c, hc, hy⟩ := ih.mp hl
          have he : x = y := agree b hb c (List.mem_cons_of_mem _ hc) x y hx hy
          exact .inl ⟨c, hc, he ▸ hy⟩
      · exact .inl ⟨b, hb, hx⟩

end Jack.FileSystem
