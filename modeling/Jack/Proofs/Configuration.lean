import Jack.Proofs.Ancestors
import Jack.Settings
import Mathlib.Data.Nat.Find

/-! Where settings come from. They are looked for from a place up to the root, and the first file that is there
decides, whatever is in it. -/

namespace Jack

/-- Looking at a host does not change it, and its working directory is named from the root. -/
class Host.Still (σ : Type) [Host (StateM σ)] : Prop where
  stat (path : Text) (s : σ) : ((Host.stat path : StateM σ _).run s).2 = s
  workingDirectory (s : σ) : ((Host.workingDirectory : StateM σ _).run s).2 = s
  isAbsolute (s : σ) : Path.isAbsolute ((Host.workingDirectory : StateM σ _).run s).1 = true

instance : Host.Still Workspace where
  stat _ _ := rfl
  workingDirectory _ := rfl
  isAbsolute _ := rfl

namespace Settings

section

variable {σ : Type}

theorem run_bind {α β : Type} (p : StateM σ α) (f : α → StateM σ β) (s : σ) :
    (p >>= f).run s = (f (p.run s).1).run (p.run s).2 := rfl

variable [Host (StateM σ)]

/-- Something is at a path, as far as a host in the given state tells. -/
def Present (s : σ) (path : Text) : Prop :=
  ∃ kind, ((Host.stat path : StateM σ _).run s).1 = .ok kind

/-- The directories in which settings are looked for: the place itself, and from each its parent. -/
def directory (s : σ) (start : Text) (i : Nat) : Text :=
  Path.parent^[i] (Path.absolute ((Host.workingDirectory : StateM σ _).run s).1 start)

/-- The file that would hold the settings of such a directory. -/
def candidate (s : σ) (start : Text) (i : Nat) : Text := Path.join [directory s start i, fileName]

variable {parse : Text → Option Settings} {s : σ} {start path : Text} {paths : List Text}

section

variable [Host.Still σ]

theorem loadFirst_cons_present (h : Present s path) :
    (loadFirst parse (path :: paths) : StateM σ _).run s = (load path parse : StateM σ _).run s := by
  obtain ⟨kind, hk⟩ := h
  rw [loadFirst, run_bind, hk, Host.Still.stat]

theorem loadFirst_cons_absent (h : ¬ Present s path) :
    (loadFirst parse (path :: paths) : StateM σ _).run s = (loadFirst parse paths : StateM σ _).run s := by
  rw [loadFirst, run_bind, Host.Still.stat]
  cases hk : ((Host.stat path : StateM σ _).run s).1 with
  | ok kind => exact absurd ⟨kind, hk⟩ h
  | error fault => rfl

/-- The paths in front of one at which something is make no difference, and neither do those behind it. -/
theorem loadFirst_append_present {before after : List Text} (hb : ∀ p ∈ before, ¬ Present s p)
    (h : Present s path) :
    (loadFirst parse (before ++ path :: after) : StateM σ _).run s = (load path parse : StateM σ _).run s := by
  induction before with
  | nil => exact loadFirst_cons_present h
  | cons p before ih =>
    rw [List.cons_append, loadFirst_cons_absent (hb p (by simp)), ih fun q hq => hb q (by simp [hq])]

theorem loadFirst_absent (h : ∀ p ∈ paths, ¬ Present s p) :
    (loadFirst parse paths : StateM σ _).run s = (.ok {}, s) := by
  induction paths with
  | nil => rfl
  | cons p paths ih =>
    rw [loadFirst_cons_absent (h p (by simp)), ih fun q hq => h q (by simp [hq])]

end

/-- Settings that were loaded name their file. -/
theorem path_of_load {settings : Settings} (h : ((load path parse : StateM σ _).run s).1 = .ok settings) :
    settings.path = path := by
  rw [load, run_bind] at h
  cases hd : ((Host.load path : StateM σ _).run s).1 with
  | error fault =>
    rw [hd] at h
    cases h
  | ok data =>
    rw [hd] at h
    dsimp only at h
    cases hp : parse data with
    | none =>
      rw [hp] at h
      cases h
    | some settings' =>
      rw [hp] at h
      cases h
      rfl

variable [Host.Still σ]

/-- Going up from a place, the root is reached, and the settings are looked for on the way. -/
theorem exists_walk (parse : Text → Option Settings) (s : σ) (start : Text) : ∃ k, directory s start k = "/" ∧
    (∀ i < k, directory s start (i + 1) ≠ directory s start i) ∧
    (find start parse : StateM σ _).run s =
      (loadFirst parse ((List.range (k + 1)).map (candidate s start)) : StateM σ _).run s := by
  obtain ⟨cs, ha, hc⟩ := Path.exists_absolute (Host.Still.isAbsolute s) start
  have hd : ∀ i, directory s start i = Path.ofParts (cs.drop i) := by
    intro i
    rw [directory, ha, Path.parent_iterate hc]
  refine ⟨cs.length, ?_, ?_, ?_⟩
  · rw [hd, List.drop_length]
    decide
  · intro i hi he
    have hp : ∀ j, Path.parts (directory s start j) = cs.drop j := by
      intro j
      rw [hd, Path.parts_ofParts fun c hm => hc c (List.mem_of_mem_drop hm)]
    have hl := congrArg (fun p => (Path.parts p).length) he
    simp only [hp, List.length_drop] at hl
    omega
  · have hf : (List.range (cs.length + 1)).map (candidate s start) =
        (Path.upwards cs).map fun d => Path.join [Path.ofParts d, fileName] := by
      rw [Path.upwards_eq, List.map_map]
      apply List.map_congr_left
      intro i _
      rw [candidate, hd]
      rfl
    rw [find, run_bind, Host.Still.workingDirectory, ha, hf]
    dsimp only
    rw [Path.parts_ofParts hc]

theorem candidate_ne_nil (s : σ) (start : Text) (i : Nat) : candidate s start i ≠ [] := by
  obtain ⟨cs, ha, hc⟩ := Path.exists_absolute (Host.Still.isAbsolute s) start
  have hd : Path.isAbsolute (directory s start i) = true := by
    rw [directory, ha, Path.parent_iterate hc]
    rfl
  obtain ⟨cs', hj, -⟩ := Path.exists_join hd fileName
  rw [candidate, hj]
  exact List.cons_ne_nil _ _

end

/-- Going up from any place ends at the root, which is the first directory that is its own parent. Whatever the
parser, the settings are what the nearest file gives that is there, an error as well, and they are the defaults
exactly if none of the files is there. -/
theorem find_nearest {σ : Type} [Host (StateM σ)] [Host.Still σ] (parse : Text → Option Settings) (s : σ)
    (start : Text) :
    ∃ k, directory s start k = "/" ∧ directory s start (k + 1) = "/" ∧
      (∀ i < k, directory s start (i + 1) ≠ directory s start i) ∧
      (∀ i ≤ k, Present s (candidate s start i) → (∀ j < i, ¬ Present s (candidate s start j)) →
        (find start parse : StateM σ _).run s = (load (candidate s start i) parse : StateM σ _).run s) ∧
      (((find start parse : StateM σ _).run s).1 = .ok {} ↔ ∀ i ≤ k, ¬ Present s (candidate s start i)) := by
  obtain ⟨k, hroot, hne, hfind⟩ := exists_walk parse s start
  have hnear : ∀ i ≤ k, Present s (candidate s start i) → (∀ j < i, ¬ Present s (candidate s start j)) →
      (find start parse : StateM σ _).run s = (load (candidate s start i) parse : StateM σ _).run s := by
    intro i hi hp hb
    obtain ⟨d, rfl⟩ := Nat.exists_eq_add_of_le hi
    have hr : List.range (i + d + 1) = List.range i ++ i :: (List.range d).map (i + 1 + ·) := by
      rw [show i + d + 1 = i + 1 + d by omega, List.range_add, List.range_succ, List.append_assoc,
        List.singleton_append]
    rw [hfind, hr, List.map_append, List.map_cons]
    apply loadFirst_append_present _ hp
    intro p hm
    obtain ⟨j, hj, rfl⟩ := List.mem_map.mp hm
    exact hb j (List.mem_range.mp hj)
  have hstays : directory s start (k + 1) = "/" := by
    rw [directory, Function.iterate_succ_apply', ← directory, hroot]
    decide
  refine ⟨k, hroot, hstays, hne, hnear, ?_⟩
  constructor
  · intro hdef i hi hp
    -- otherwise the nearest file that is there would have given settings with its path
    classical
    have hex : ∃ j, j ≤ k ∧ Present s (candidate s start j) := ⟨i, hi, hp⟩
    obtain ⟨hle, hfound⟩ := Nat.find_spec hex
    have hbefore : ∀ j < Nat.find hex, ¬ Present s (candidate s start j) :=
      fun j hj hpj => Nat.find_min hex hj ⟨by omega, hpj⟩
    rw [hnear _ hle hfound hbefore] at hdef
    exact candidate_ne_nil s start _ (path_of_load hdef).symm
  · intro h
    rw [hfind, loadFirst_absent]
    intro p hp
    obtain ⟨i, hi, rfl⟩ := List.mem_map.mp hp
    exact h i (Nat.le_of_lt_succ (List.mem_range.mp hi))

/-- Settings at the root, nearer to the working directory a directory of the same name, and below it a file that
is no document. -/
def hidden : Workspace where
  files := ⟨[([fileName], .file []), (["p"], .directory), ([fileName, "p"], .directory),
    (["q", "p"], .directory), ([fileName, "q", "p"], .file "=")]⟩
  workingDirectory := ["p"]

/-- A nearer entry that cannot be read is not passed over for the file at the root, and neither is a file that
cannot be parsed. -/
theorem find_nearest_hidden :
    (find "q/../r/." : StateM Workspace _).run hidden =
        (load "/p/jackc.toml" : StateM Workspace _).run hidden ∧
      ((find "q/../r/." : StateM Workspace _).run hidden).1 =
        .error (.unreadable "/p/jackc.toml" ⟨.read, "/p/jackc.toml", .isDirectory⟩) ∧
      (find "r/../q" : StateM Workspace _).run hidden =
        (load "/p/q/jackc.toml" : StateM Workspace _).run hidden ∧
      ((find "r/../q" : StateM Workspace _).run hidden).1 = .error (.malformed "/p/q/jackc.toml") := by
  obtain ⟨k, hroot, -, -, hnear, -⟩ := find_nearest parse? hidden "q/../r/."
  obtain ⟨k', -, -, -, hnear', -⟩ := find_nearest parse? hidden "r/../q"
  have hc : candidate hidden "q/../r/." 1 = "/p/jackc.toml" := by decide +kernel
  have hk : 1 ≤ k := by
    by_contra hk
    obtain rfl : k = 0 := by omega
    have hd : directory hidden "q/../r/." 0 ≠ "/" := by decide +kernel
    exact hd hroot
  have hp : Present hidden (candidate hidden "q/../r/." 1) := ⟨.directory, by decide +kernel⟩
  have hb : ∀ j < 1, ¬ Present hidden (candidate hidden "q/../r/." j) := by
    intro j hj
    obtain rfl : j = 0 := by omega
    rintro ⟨kind, h⟩
    have hn : ((Host.stat (candidate hidden "q/../r/." 0) : StateM Workspace _).run hidden).1 =
        .error ⟨.stat, "/p/r/jackc.toml", .noEntry⟩ := by decide +kernel
    rw [hn] at h
    cases h
  have hf := hnear 1 hk hp hb
  rw [hc] at hf
  have hc' : candidate hidden "r/../q" 0 = "/p/q/jackc.toml" := by decide +kernel
  have hp' : Present hidden (candidate hidden "r/../q" 0) := ⟨.file, by decide +kernel⟩
  have hf' := hnear' 0 (Nat.zero_le _) hp' fun j hj => absurd hj (Nat.not_lt_zero j)
  rw [hc'] at hf'
  refine ⟨hf, ?_, hf', ?_⟩
  · rw [hf]
    decide +kernel
  · rw [hf']
    decide +kernel

end Settings

end Jack
