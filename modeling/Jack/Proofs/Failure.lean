import Jack.Proofs.Job

/-! What a file that fails leaves behind, on any file system. Apart from log lines, a failure leaves every
file as it was, unless it is the trace that could not be written: the code file is written before it. -/

namespace Jack

namespace FileSystem

/-- A place where a file stands or can be made. -/
structure Free (fs : FileSystem) (p : Place) : Prop where
  ne_nil : p ≠ []
  entry_eq : ∀ e, fs.entry? p = some e → ∃ data, e = .file data

section

variable {fs : FileSystem} {dir d p : Place} {names rest : List Text} {target : Text} {slashed : Bool}
  {links : Nat}

/-- A walk that ends at a name ends there as well when a file was written there. -/
theorem walk_put (h : (∃ data, fs.walk dir names = .file p data slashed) ∨
      fs.walk dir names = .absent p slashed) (x : Text) :
    fs.Free p ∧ (fs.put p (.file x)).walk dir names = .file p x slashed := by
  fun_induction walk fs dir names with
  | case2 dir name names hn ih =>
    rw [walk, if_pos hn]
    exact ih h
  | case3 dir name names hn hp ih =>
    rw [walk, if_neg hn, if_pos hp]
    exact ih h
  | case5 dir name names hn hp hl he ih =>
    obtain ⟨hf, hw⟩ := ih h
    have hne : name :: dir ≠ p := by
      rintro rfl
      obtain ⟨data, hd⟩ := hf.entry_eq _ he
      cases hd
    rw [walk, if_neg hn, if_neg hp, if_neg hl]
    simp only [entry?_put fs hf.ne_nil, if_neg hne, he]
    exact ⟨hf, hw⟩
  | case7 dir name names hn hp hl ends bytes he hends =>
    obtain ⟨rfl, rfl⟩ : name :: dir = p ∧ (!names.isEmpty) = slashed := by
      simpa using h
    have hf : fs.Free (name :: dir) := ⟨List.cons_ne_nil _ _, fun e h => ⟨bytes, by simpa [he] using h.symm⟩⟩
    rw [walk, if_neg hn, if_neg hp, if_neg hl]
    simp only [entry?_put fs hf.ne_nil, if_true]
    exact ⟨hf, if_pos hends⟩
  | case9 dir name names hn hp hl ends he hends =>
    obtain ⟨rfl, rfl⟩ : name :: dir = p ∧ (!names.isEmpty) = slashed := by
      simpa using h
    have hf : fs.Free (name :: dir) := ⟨List.cons_ne_nil _ _, fun e h => by simp [he] at h⟩
    rw [walk, if_neg hn, if_neg hp, if_neg hl]
    simp only [entry?_put fs hf.ne_nil, if_true]
    exact ⟨hf, if_pos hends⟩
  | _ => simp at h

/-- Links are met as before when a file was written. -/
theorem walk_put_of_link (hf : fs.Free p) (h : fs.walk dir names = .link d target rest) (x : Text) :
    (fs.put p (.file x)).walk dir names = .link d target rest := by
  have hput := entry?_put fs hf.ne_nil (.file x)
  have hne : ∀ {q : Place} {e : Entry}, fs.entry? q = some e → (∀ data, e ≠ .file data) → q ≠ p := by
    rintro q e he hd rfl
    obtain ⟨data, rfl⟩ := hf.entry_eq e he
    exact hd data rfl
  fun_induction walk fs dir names with
  | case2 dir name names hn ih =>
    rw [walk, if_pos hn]
    exact ih h
  | case3 dir name names hn hp ih =>
    rw [walk, if_neg hn, if_pos hp]
    exact ih h
  | case5 dir name names hn hp hl he ih =>
    rw [walk, if_neg hn, if_neg hp, if_neg hl]
    simp only [hput, if_neg (hne he (by simp)), he]
    exact ih h
  | case6 dir name names hn hp hl t he =>
    rw [walk, if_neg hn, if_neg hp, if_neg hl]
    simp only [hput, if_neg (hne he (by simp)), he]
    exact h
  | _ => simp at h

theorem follow_put (h : (∃ data, fs.follow links dir names = .file p data slashed) ∨
      fs.follow links dir names = .absent p slashed) (x : Text) :
    fs.Free p ∧ (fs.put p (.file x)).follow links dir names = .file p x slashed := by
  fun_induction follow fs links dir names with
  | case1 => simp at h
  | case2 dir names d target rest links hw ih =>
    obtain ⟨hf, hx⟩ := ih h
    unfold follow
    rw [walk_put_of_link hf hw]
    exact ⟨hf, hx⟩
  | case3 links dir names =>
    obtain ⟨hf, hx⟩ := walk_put h x
    unfold follow
    rw [hx]
    exact ⟨hf, rfl⟩

/-- A path is blocked by its text, or it is followed. -/
theorem find_cases (cwd : Place) (path : Text) :
    (∃ reason, ∀ fs : FileSystem, fs.find cwd path = .blocked reason) ∨
      ∃ start, ∀ fs : FileSystem,
        fs.find cwd path = fs.follow maxLinks start (Text.splitOn Byte.slash path) := by
  by_cases hz : path.contains 0 = true
  · exact .inl ⟨.invalidArgument, fun fs => by rw [find, if_pos hz]⟩
  by_cases hn : path.isEmpty = true
  · exact .inl ⟨.noEntry, fun fs => by rw [find, if_neg hz, if_pos hn]⟩
  by_cases hl : maxPath < path.length
  · exact .inl ⟨.nameTooLong, fun fs => by rw [find, if_neg hz, if_neg hn, if_pos hl]⟩
  · exact .inr ⟨_, fun fs => by rw [find, if_neg hz, if_neg hn, if_neg hl]⟩

/-- A path that can be written to leads to the same place when a file was written there. -/
theorem target_put {cwd : Place} {path : Text} (h : fs.target cwd path = .ok p) (x : Text) :
    fs.Free p ∧ (fs.put p (.file x)).target cwd path = .ok p := by
  have hfind : (∃ data, fs.find cwd path = .file p data false) ∨ fs.find cwd path = .absent p false := by
    unfold target at h
    split at h
    case h_4 q data hq =>
      cases h
      exact .inl ⟨data, hq⟩
    case h_5 q hq =>
      cases h
      exact .inr hq
    all_goals cases h
  have hput : fs.Free p ∧ (fs.put p (.file x)).find cwd path = .file p x false := by
    rcases find_cases cwd path with ⟨reason, hb⟩ | ⟨start, hs⟩
    · simp [hb] at hfind
    · rw [hs] at hfind ⊢
      exact follow_put hfind x
  refine ⟨hput.1, ?_⟩
  unfold target
  rw [hput.2]

/-- Changing a file fails without effect, or writes to the place that its path leads to. -/
theorem update_cases (fs : FileSystem) (cwd : Place) (path : Text) (change : Text → Text) :
    (∃ fault, fs.update cwd path change = .error fault) ∨
      ∃ p x, fs.target cwd path = .ok p ∧ fs.update cwd path change = .ok (fs.put p (.file x)) := by
  unfold update target
  cases fs.find cwd path with
  | directory | link | blocked => exact .inl ⟨_, rfl⟩
  | file p data slashed =>
    cases slashed with
    | true => exact .inl ⟨_, rfl⟩
    | false => exact .inr ⟨p, change data, rfl, rfl⟩
  | absent p slashed =>
    cases slashed with
    | true => exact .inl ⟨_, rfl⟩
    | false => exact .inr ⟨p, change [], rfl, rfl⟩

/-- Writing to a path again and again goes to one place, and keeps all others. -/
theorem putAll_of_target {cwd : Place} {path : Text} {writes : List Write}
    (h : ∀ v ∈ writes, fs.target cwd path = .ok v.place) :
    (fs.putAll writes).target cwd path = fs.target cwd path ∧
      ∀ p, fs.target cwd path ≠ .ok p → entry? (fs.putAll writes) p = fs.entry? p := by
  induction writes generalizing fs with
  | nil => exact ⟨rfl, fun _ _ => rfl⟩
  | cons v writes ih =>
    have hv : fs.target cwd path = .ok v.place := h v List.mem_cons_self
    obtain ⟨hf, hput⟩ := target_put hv v.data
    rw [← hv] at hput
    have hs : ∀ u ∈ writes, (fs.put v.place (.file v.data)).target cwd path = .ok u.place := by
      intro u hu
      rw [hput]
      exact h u (List.mem_cons_of_mem _ hu)
    obtain ⟨ht, he⟩ := ih hs
    rw [hput] at ht he
    refine ⟨ht, fun p hp => ?_⟩
    have hne : p ≠ v.place := by
      rintro rfl
      exact hp hv
    change entry? ((fs.put v.place (.file v.data)).putAll writes) p = _
    rw [he p hp, entry?_put fs hf.ne_nil, if_neg hne]

end

end FileSystem

namespace Command

open FileSystem

/-- It was the trace that could not be written. -/
def FileError.OfTrace (e : FileError) : Prop := ∃ out fault, e = .traceUnwritten out fault

/-- Writes to the log file and to no other. -/
def LogOnly (log : Log) (w : Workspace) (writes : List Write) : Prop :=
  ∀ v ∈ writes, w.files.target w.workingDirectory log.file = .ok v.place

/-- Running gives the value and writes nothing but log lines. -/
def Logs {α : Type} (log : Log) (p : StateM Workspace α) (w : Workspace) (a : α) : Prop :=
  ∃ writes, LogOnly log w writes ∧ Does p w a writes

section

variable {α β : Type} {log : Log} {settings : Settings} {w : Workspace} {path : Text}

theorem LogOnly.append {writes more : List Write} {errors : Text} (h : LogOnly log w writes)
    (hm : LogOnly log { w with files := w.files.putAll writes, errors := errors } more) :
    LogOnly log w (writes ++ more) := by
  intro v hv
  rcases List.mem_append.mp hv with hv | hv
  · exact h v hv
  · have ht := hm v hv
    dsimp only at ht
    rwa [(putAll_of_target h).1] at ht

theorem Does.logs {p : StateM Workspace α} {a : α} (h : Does p w a []) : Logs log p w a :=
  ⟨[], fun _ hv => absurd hv List.not_mem_nil, h⟩

/-- What follows log lines goes on in a workspace that they have changed. -/
theorem Logs.next {p : StateM Workspace α} {a : α} (h : Logs log p w a) :
    ∃ writes errors, LogOnly log w writes ∧ ∀ {β : Type} {f : α → StateM Workspace β} {b more},
      Does (f a) { w with files := w.files.putAll writes, errors := errors } b more →
      Does (p >>= f) w b (writes ++ more) := by
  obtain ⟨writes, hw, errors, hp⟩ := h
  refine ⟨writes, errors, hw, ?_⟩
  rintro β f b more ⟨errors', hb⟩
  refine ⟨errors', ?_⟩
  rw [StateT.run_bind, hp]
  change (f a).run _ = _
  rw [hb, putAll_append]

theorem Logs.bind {p : StateM Workspace α} {f : α → StateM Workspace β} {a : α} {b : β}
    (h : Logs log p w a) (hf : ∀ w', Logs log (f a) w' b) : Logs log (p >>= f) w b := by
  obtain ⟨writes, errors, hw, hn⟩ := h.next
  obtain ⟨more, hm, hb⟩ := hf { w with files := w.files.putAll writes, errors := errors }
  exact ⟨writes ++ more, hw.append hm, hn hb⟩

/-- Changing a file fails without effect, or writes to the place that its path leads to. -/
theorem does_change (w : Workspace) (path : Text) (f : Text → Text) :
    (∃ fault, Does (Workspace.change path f) w (.error fault) []) ∨
      ∃ p x, w.files.target w.workingDirectory path = .ok p ∧
        Does (Workspace.change path f) w (.ok ()) [⟨p, x⟩] := by
  unfold Workspace.change
  rcases update_cases w.files w.workingDirectory path f with ⟨fault, hu⟩ | ⟨p, x, ht, hu⟩
  · refine .inl ⟨fault, w.errors, ?_⟩
    simp [hu]
    rfl
  · refine .inr ⟨p, x, ht, w.errors, ?_⟩
    simp [hu]
    rfl

theorem Does.discard {p : StateM Workspace α} {a : α} {writes : List Write} (h : Does p w a writes) :
    Does (Functor.discard p) w () writes := by
  obtain ⟨errors, hp⟩ := h
  refine ⟨errors, ?_⟩
  change ((fun _ => ()) <$> p).run w = _
  rw [StateT.run_map, hp]
  rfl

theorem logs_put (text : Text) : Logs log (log.put text) w () := by
  unfold Log.put
  split
  · exact (does_report text).logs
  · rcases does_change w log.file (· ++ text) with ⟨fault, hd⟩ | ⟨p, x, ht, hd⟩
    · exact hd.discard.logs
    · refine ⟨[⟨p, x⟩], ?_, hd.discard⟩
      simpa [LogOnly] using ht

theorem logs_write (message : Message) : Logs log (log.write message) w () := by
  unfold Log.write
  split
  · have hs : Does (Host.timeStamp : StateM Workspace Text) w w.timeStamp [] := ⟨w.errors, rfl⟩
    exact hs.logs.bind fun _ => logs_put _
  · exact (Does.pure () w).logs

theorem logs_notes (notes : List Note) :
    Logs log (notes.forM fun note => log.write (.ofNote note)) w () := by
  induction notes generalizing w with
  | nil => exact (Does.pure () w).logs
  | cons note notes ih => exact (logs_write _).bind fun _ => ih

/-- A source is opened as it stands, or not at all. -/
theorem does_openSource (w : Workspace) (path : Text) :
    (∃ e, ¬ e.OfTrace ∧ Does (openSource path) w (.error e) []) ∨
      ∃ data, w.files.read w.workingDirectory path = .ok data ∧
        Does (openSource path) w (.ok (Lexer.ofText data)) [] := by
  unfold openSource
  have hl := does_load (w := w) path
  cases hr : w.files.read w.workingDirectory path with
  | ok data =>
    rw [hr] at hl
    exact .inr ⟨data, rfl, hl.skip fun _ => .pure _ _⟩
  | error fault =>
    rw [hr] at hl
    obtain ⟨operation, out, reason⟩ := fault
    cases operation with
    | read =>
      exact .inl ⟨.unreadable ⟨_⟩, by simp [FileError.OfTrace], hl.skip fun _ => .pure _ _⟩
    | stat | «open» | write =>
      exact .inl ⟨.unopened path _, by simp [FileError.OfTrace], hl.skip fun _ => .pure _ _⟩

/-- What saving comes to, and what is written besides log lines: nothing if it fails, except for the code
where the trace could not be written. -/
def SavesCode (log : Log) (codePath code : Text) (p : StateM Workspace (Except FileError Text))
    (w : Workspace) : Prop :=
  ∃ logged, LogOnly log w logged ∧
    ((∃ e, ¬ e.OfTrace ∧ Does p w (.error e) logged) ∨
      ∃ q, (w.files.putAll logged).target w.workingDirectory codePath = .ok q ∧
        ((∃ e, e.OfTrace ∧ Does p w (.error e) (logged ++ [⟨q, code⟩])) ∨
          ∃ out writes, Does p w (.ok out) writes))

theorem savesCode_save (w : Workspace) (u : Compiled) :
    SavesCode log (Path.withExtension path settings.extension) u.code (save settings path u) w := by
  refine ⟨[], fun _ hv => absurd hv List.not_mem_nil, ?_⟩
  unfold save
  cases ht : w.files.target w.workingDirectory (Path.withExtension path settings.extension) with
  | error reason =>
    have hd := does_store_of_error ht u.code
    exact .inl ⟨.codeUnwritten _ _, by simp [FileError.OfTrace], hd.skip fun _ => .pure _ _⟩
  | ok q =>
    refine .inr ⟨q, ht, ?_⟩
    have hd := does_store ht u.code
    cases htrace : settings.trace with
    | false => exact .inr ⟨_, _, hd.bind fun _ => .pure _ _⟩
    | true =>
      simp only [Bool.not_true, Bool.false_eq_true, if_false]
      let files := w.files.putAll [⟨q, u.code⟩]
      let out := Path.withExtension path settings.traceExtension
      -- Where the trace goes is settled after the code was written.
      cases hx : files.target w.workingDirectory out with
      | error reason =>
        have hs : ∀ errors, Does (Host.store out u.xml) { w with files := files, errors := errors }
            (.error ⟨.open, out, reason⟩) [] := by
          intro errors
          exact does_store_of_error (w := { w with files := files, errors := errors }) hx u.xml
        have he : (FileError.traceUnwritten out ⟨.open, out, reason⟩).OfTrace := ⟨_, _, rfl⟩
        exact .inl ⟨_, he, hd.last fun errors => (hs errors).skip fun _ => .pure _ _⟩
      | ok r =>
        have hs : ∀ errors, Does (Host.store out u.xml) { w with files := files, errors := errors }
            (.ok ()) [⟨r, u.xml⟩] := by
          intro errors
          exact does_store (w := { w with files := files, errors := errors }) hx u.xml
        exact .inr ⟨_, _, hd.bind fun errors => (hs errors).bind fun _ => .pure _ _⟩

/-- Log lines may come first. -/
theorem Logs.savesCode {codePath code : Text} {p : StateM Workspace α} {a : α}
    {f : α → StateM Workspace (Except FileError Text)} (h : Logs log p w a)
    (hf : ∀ w', SavesCode log codePath code (f a) w') : SavesCode log codePath code (p >>= f) w := by
  obtain ⟨writes, errors, hw, hn⟩ := h.next
  obtain ⟨logged, hl, hs⟩ := hf { w with files := w.files.putAll writes, errors := errors }
  refine ⟨writes ++ logged, hw.append hl, ?_⟩
  rcases hs with ⟨e, he, hd⟩ | ⟨q, hq, ⟨e, he, hd⟩ | ⟨out, more, hd⟩⟩
  · exact .inl ⟨e, he, hn hd⟩
  · refine .inr ⟨q, by rwa [putAll_append], .inl ⟨e, he, ?_⟩⟩
    rw [List.append_assoc]
    exact hn hd
  · exact .inr ⟨q, by rwa [putAll_append], .inr ⟨out, _, hn hd⟩⟩

/-- A file fails before its class is compiled, or its class is saved. -/
theorem compileFile_cases (log : Log) (settings : Settings) (path : Text) (w : Workspace) :
    (∃ e, ¬ e.OfTrace ∧ Logs log (compileFile log settings path) w (.error e)) ∨
      ∃ data u, w.files.read w.workingDirectory path = .ok data ∧ compileText data = .ok u ∧
        SavesCode log (Path.withExtension path settings.extension) u.code
          (compileFile log settings path) w := by
  unfold compileFile
  rcases does_openSource w path with ⟨e, he, hd⟩ | ⟨data, hr, hd⟩
  · exact .inl ⟨e, he, hd.logs.bind fun w' => (Does.pure _ w').logs⟩
  cases hc : compileText data with
  | error e =>
    have ho : (compile (Lexer.ofText data).toSource).outcome = .error e := hc
    refine .inl ⟨.rejected e, by simp [FileError.OfTrace], hd.logs.bind fun _ => ?_⟩
    refine (logs_notes _).bind fun w' => ?_
    simp only [ho]
    exact (Does.pure _ w').logs
  | ok u =>
    have ho : (compile (Lexer.ofText data).toSource).outcome = .ok u := hc
    refine .inr ⟨data, u, hr, hc, hd.logs.savesCode fun _ => (logs_notes _).savesCode fun w' => ?_⟩
    simp only [ho]
    split
    · exact (logs_write _).savesCode fun w' => savesCode_save w' u
    · exact savesCode_save w' u

theorem Does.eq_of_run {p : StateM Workspace α} {a b : α} {w' : Workspace} {writes : List Write}
    (h : Does p w a writes) (hr : p.run w = (b, w')) : a = b ∧ w'.files = w.files.putAll writes := by
  obtain ⟨errors, hp⟩ := h
  rw [hp] at hr
  cases hr
  exact ⟨rfl, rfl⟩

end

/-- A file that fails for any other reason than its trace leaves every file but the log as it was. One whose
trace could not be written leaves its code in the code file and all others as they were; so all are as they
were exactly if the code file is the log or held this code before. -/
theorem compileFile_failure_keeps_files {log : Log} {settings : Settings} {path : Text}
    {w w' : Workspace} {e : FileError}
    (h : (compileFile log settings path : StateM Workspace _).run w = (.error e, w')) :
    (¬ e.OfTrace → ∀ p, w.files.target w.workingDirectory log.file ≠ .ok p →
        w'.files.entry? p = w.files.entry? p) ∧
      (e.OfTrace → ∃ data u q, w.files.read w.workingDirectory path = .ok data ∧
        compileText data = .ok u ∧
        w'.files.target w.workingDirectory (Path.withExtension path settings.extension) = .ok q ∧
        w'.files.entry? q = some (.file u.code) ∧
        (∀ p, w.files.target w.workingDirectory log.file ≠ .ok p → p ≠ q →
          w'.files.entry? p = w.files.entry? p) ∧
        ((∀ p, w.files.target w.workingDirectory log.file ≠ .ok p →
            w'.files.entry? p = w.files.entry? p) ↔
          w.files.target w.workingDirectory log.file = .ok q ∨
            w.files.entry? q = some (.file u.code))) := by
  rcases compileFile_cases log settings path w with ⟨e', he, logged, hl, hd⟩ |
    ⟨data, u, hr, hc, logged, hl, ⟨e', he, hd⟩ | ⟨q, hq, ⟨e', he, hd⟩ | ⟨out, writes, hd⟩⟩⟩
  · obtain ⟨heq, hw⟩ := hd.eq_of_run h
    cases heq
    rw [hw]
    exact ⟨fun _ => (putAll_of_target hl).2, fun ht => absurd ht he⟩
  · obtain ⟨heq, hw⟩ := hd.eq_of_run h
    cases heq
    rw [hw]
    exact ⟨fun _ => (putAll_of_target hl).2, fun ht => absurd ht he⟩
  · obtain ⟨heq, hw⟩ := hd.eq_of_run h
    cases heq
    rw [putAll_append] at hw
    have hw : w'.files = (w.files.putAll logged).put q (.file u.code) := hw
    obtain ⟨hf, ht⟩ := target_put hq u.code
    have hput := entry?_put (w.files.putAll logged) hf.ne_nil (.file u.code)
    have hcode : w'.files.entry? q = some (.file u.code) := by
      rw [hw, hput, if_pos rfl]
    have hother : ∀ p, w.files.target w.workingDirectory log.file ≠ .ok p → p ≠ q →
        w'.files.entry? p = w.files.entry? p := by
      intro p hp hpq
      rw [hw, hput, if_neg hpq]
      exact (putAll_of_target hl).2 p hp
    refine ⟨fun hne => absurd he hne, fun _ => ⟨data, u, q, hr, hc, hw ▸ ht, hcode, hother, ?_⟩⟩
    constructor
    · intro hkeep
      by_cases hlog : w.files.target w.workingDirectory log.file = .ok q
      · exact .inl hlog
      · exact .inr ((hkeep q hlog).symm.trans hcode)
    · intro hbefore p hp
      by_cases hpq : p = q
      · rcases hbefore with hlog | hsame
        · exact absurd (hpq ▸ hlog) hp
        · rw [hpq, hcode, hsame]
      · exact hother p hp hpq
  · cases (hd.eq_of_run h).1

/-- Settings with a trace. -/
def tracing : Settings := { trace := true }

/-- A log that shows nothing. -/
def quiet : Log := ⟨-4, []⟩

/-- A link to a source that breaks off. -/
def brokenSource : Workspace where
  files := ⟨[(["Broken.jack"], .file "class Broken \x7b"), (["Link.jack"], .link "Broken.jack")]⟩

/-- A directory stands where the trace of a class would go. -/
def blockedTrace : Workspace where
  files := ⟨[(["Main.jack"], .file
    "class Main \x7b function void main() \x7b return; \x7d \x7d"), (["Main.xml"], .directory)]⟩

theorem exists_error_of_run {α : Type} {p : StateM Workspace (Except FileError α)} {w : Workspace}
    (h : (p.run w).1.toOption.isNone = true) : ∃ e, p.run w = (.error e, (p.run w).2) := by
  rcases hp : p.run w with ⟨r, w'⟩
  rw [hp] at h
  cases r with
  | error e => exact ⟨e, rfl⟩
  | ok a => cases h

theorem compileFile_failure_keeps_files_brokenSource :
    ∃ e w', (compileFile quiet tracing "Link.jack" : StateM Workspace _).run brokenSource = (.error e, w') ∧
      ∀ p, w'.files.entry? p = brokenSource.files.entry? p := by
  obtain ⟨e, he⟩ := exists_error_of_run (p := compileFile quiet tracing "Link.jack") (w := brokenSource)
    (by decide +kernel)
  refine ⟨e, _, he, fun p => ?_⟩
  obtain ⟨hkeep, htrace⟩ := compileFile_failure_keeps_files he
  have hlog : brokenSource.files.target brokenSource.workingDirectory quiet.file ≠ .ok p := nofun
  refine hkeep (fun ht => ?_) p hlog
  obtain ⟨data, u, q, hr, hc, -⟩ := htrace ht
  have hd : brokenSource.files.read brokenSource.workingDirectory "Link.jack" =
      .ok "class Broken \x7b" := by decide +kernel
  cases hr.symm.trans hd
  have hn : (compileText "class Broken \x7b").toOption.isNone = true := by decide +kernel
  rw [hc] at hn
  cases hn

/-- The class fails, and its code file has been made. -/
theorem compileFile_blockedTrace_leaves_code :
    ∃ e w', (compileFile quiet tracing "Main.jack" : StateM Workspace _).run blockedTrace = (.error e, w') ∧
      blockedTrace.files.entry? ["Main.vm"] = none ∧
      w'.files.entry? ["Main.vm"] = some (.file "function Main.main 0\npush constant 0\nreturn\n") := by
  obtain ⟨e, he⟩ := exists_error_of_run (p := compileFile quiet tracing "Main.jack") (w := blockedTrace)
    (by decide +kernel)
  exact ⟨e, _, he, by decide +kernel, by decide +kernel⟩

end Command

end Jack
