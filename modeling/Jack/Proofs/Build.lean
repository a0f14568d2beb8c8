import Jack.Proofs.Job

/-! Building does not depend on the order in which files are compiled. No product is a source, files that share
a product share their source, and so every file comes out as if it were built alone. -/

namespace Jack.Command

open FileSystem

/-- Extensions of products: a dot and what is neither a dot nor a slash, and not that of sources. -/
structure ProductExtension (e : Text) : Prop where
  plain : Path.Plain e
  ne_source : e ≠ sourceExtension

/-- Building that logs to the standard error stream, in a workspace without links, from paths to files. -/
structure Buildable (log : Log) (settings : Settings) (w : Workspace) (paths : List Text) : Prop where
  log_eq : log.file = []
  linkless : w.files.Linkless
  stat_eq : ∀ path ∈ paths, w.files.stat w.workingDirectory path = .ok .file
  extension : ProductExtension settings.extension
  traceExtension : ProductExtension settings.traceExtension

theorem ProductExtension.ending {e : Text} (h : ProductExtension e) : Path.Ending e := h.plain.ending

theorem ProductExtension.extension_ne {e : Text} (h : ProductExtension e) (s : Text) :
    Path.extension (s ++ e) ≠ sourceExtension := by
  rw [Path.extension_append h.plain]
  exact h.ne_source

theorem productExtension_xml : ProductExtension ".xml" where
  plain := ⟨⟨[0x78, 0x6D, 0x6C], rfl, by decide⟩, by decide⟩
  ne_source := by decide

theorem separate_dump : Separate ["T.xml"] where
  ending := by
    intro e he
    rw [List.mem_singleton.mp he]
    exact ⟨by decide, by decide⟩
  extension_ne := by
    intro e he s
    have hx : s ++ Text.ofString "T.xml" = s ++ Text.ofString "T" ++ Text.ofString ".xml" := by
      rw [List.append_assoc]
      rfl
    rw [List.mem_singleton.mp he, hx]
    exact productExtension_xml.extension_ne _
  eq_of_append := by
    intro e he e' he' _ _ _
    rw [List.mem_singleton.mp he, List.mem_singleton.mp he']

theorem separate_of_extensions {endings : List Text} (h : ∀ e ∈ endings, ProductExtension e) :
    Separate endings where
  ending e he := (h e he).ending
  extension_ne e he := (h e he).extension_ne
  eq_of_append e he e' he' s s' hs := by
    rw [← Path.extension_append (h e he).plain s, hs, Path.extension_append (h e' he').plain]

section

variable {log : Log} {settings : Settings} {tokens : Bool} {w w' : Workspace} {paths : List Text}
  {path base data e x : Text} {dir p : Place}

theorem Buildable.separate (h : Buildable log settings w paths) (tokens : Bool) :
    Separate (suffixes settings tokens) := by
  cases tokens with
  | true => exact separate_dump
  | false =>
    refine separate_of_extensions fun e he => ?_
    unfold suffixes at he
    rcases List.mem_cons.mp he with rfl | he
    · exact h.extension
    · split at he
      · rw [List.mem_singleton.mp he]
        exact h.traceExtension
      · cases he

/-- What is left behind an ending when a source was built. A trace is written after the code. -/
def made (settings : Settings) (tokens : Bool) (data e : Text) : Option Text :=
  if tokens then some (TokenDump.ofTokens (Lexer.ofText data).tokens.1).written
  else (compileText data).toOption.map fun u =>
    if settings.trace && e == settings.traceExtension then u.xml else u.code

/-- What the plan for a class can be: how far the code and the trace can be written. -/
inductive Saves (settings : Settings) (w : Workspace) (path : Text) (u : Compiled) : Plan → Prop
  | codeless {reason : Fault.Reason} {error : FileError}
      (hc : productPlace w path settings.extension = .error reason) :
      Saves settings w path u ⟨some error, []⟩
  | untraced {q : Place} (ht : settings.trace = false)
      (hc : productPlace w path settings.extension = .ok q) :
      Saves settings w path u ⟨none, [⟨q, u.code⟩]⟩
  | traceless {q : Place} {reason : Fault.Reason} {error : FileError} (ht : settings.trace = true)
      (hc : productPlace w path settings.extension = .ok q)
      (hx : productPlace w path settings.traceExtension = .error reason) :
      Saves settings w path u ⟨some error, [⟨q, u.code⟩]⟩
  | traced {q q' : Place} (ht : settings.trace = true)
      (hc : productPlace w path settings.extension = .ok q)
      (hx : productPlace w path settings.traceExtension = .ok q') :
      Saves settings w path u ⟨none, [⟨q, u.code⟩, ⟨q', u.xml⟩]⟩

theorem saves_planFor (settings : Settings) (w : Workspace) (path : Text) {u : Compiled}
    (hu : compileText data = .ok u) :
    Saves settings w path u (planFor settings false w path data) := by
  unfold planFor products
  simp only [hu, Bool.false_eq_true, if_false, deliver]
  cases hc : productPlace w path settings.extension with
  | error reason => exact .codeless hc
  | ok q =>
    cases ht : settings.trace with
    | false => exact .untraced ht hc
    | true =>
      simp only [if_true, deliver]
      cases hx : productPlace w path settings.traceExtension with
      | error reason => exact .traceless ht hc hx
      | ok q' => exact .traced ht hc hx

theorem made_trace {u : Compiled} (hu : compileText data = .ok u) (ht : settings.trace = true) :
    made settings false data settings.traceExtension = some u.xml := by
  simp [made, hu, ht, Except.toOption]

theorem made_code {u : Compiled} (hu : compileText data = .ok u)
    (ht : settings.trace = true → settings.extension ≠ settings.traceExtension) :
    made settings false data settings.extension = some u.code := by
  have hn : ¬ (settings.trace = true ∧ settings.extension = settings.traceExtension) :=
    fun h => ht h.1 h.2
  simp [made, hu, hn, Except.toOption]

/-- Whatever is written of a source goes behind one of the endings, and is what is made of the source. -/
theorem Input.written_planFor (h : Input w path dir base data) (hs : Separate (suffixes settings tokens))
    (hx : written p (planFor settings tokens w path data).writes = some x) :
    ∃ e ∈ suffixes settings tokens, p = (base ++ e) :: dir ∧ made settings tokens data e = some x ∧
      productPlace w path e = .ok p := by
  suffices hsuff : ∃ e ∈ suffixes settings tokens, made settings tokens data e = some x ∧
      productPlace w path e = .ok p by
    obtain ⟨e, he, hm, ht⟩ := hsuff
    exact ⟨e, he, h.place_eq (hs.ending e he) ht, hm, ht⟩
  cases tokens with
  | true =>
    unfold planFor products at hx
    simp only [if_true, deliver] at hx
    cases ht : productPlace w path "T.xml" with
    | error reason =>
      rw [ht] at hx
      cases hx
    | ok q =>
      rw [ht] at hx
      rcases written_cons_iff.mp hx with hx | ⟨-, rfl, rfl⟩
      · cases hx
      · exact ⟨"T.xml", List.mem_singleton_self _, rfl, ht⟩
  | false =>
    have hmem : settings.extension ∈ suffixes settings false := List.mem_cons_self
    cases hu : compileText data with
    | error err =>
      have hw : (planFor settings false w path data).writes = [] := by
        simp [planFor, products, hu, deliver]
      rw [hw] at hx
      cases hx
    | ok u =>
      have hsaves := saves_planFor settings w path hu
      generalize planFor settings false w path data = plan at hx hsaves
      cases hsaves with
      | codeless => cases hx
      | untraced htrace hc =>
        rcases written_cons_iff.mp hx with hx | ⟨-, rfl, rfl⟩
        · cases hx
        · exact ⟨_, hmem, made_code hu (by simp [htrace]), hc⟩
      | traceless htrace hc ht =>
        rcases written_cons_iff.mp hx with hx | ⟨-, rfl, rfl⟩
        · cases hx
        · refine ⟨_, hmem, made_code hu fun _ he => ?_, hc⟩
          rw [he, ht] at hc
          cases hc
      | traced htrace hc ht =>
        have hmem' : settings.traceExtension ∈ suffixes settings false := by simp [suffixes, htrace]
        rcases written_cons_iff.mp hx with hx | ⟨hn, rfl, rfl⟩
        · rcases written_cons_iff.mp hx with hx | ⟨-, rfl, rfl⟩
          · cases hx
          · exact ⟨_, hmem', made_trace hu htrace, ht⟩
        · refine ⟨_, hmem, made_code hu fun _ he => ?_, hc⟩
          rw [he, ht] at hc
          cases hc
          simp [written] at hn

/-- A file that does not fail has something written behind every ending. -/
theorem Input.written_of_success (h : Input w path dir base data)
    (hs : Separate (suffixes settings tokens))
    (hn : (planFor settings tokens w path data).error? = none) (he : e ∈ suffixes settings tokens) :
    ∃ x, written ((base ++ e) :: dir) (planFor settings tokens w path data).writes = some x := by
  suffices hsuff : ∃ v ∈ (planFor settings tokens w path data).writes,
      productPlace w path e = .ok v.place by
    obtain ⟨v, hv, ht⟩ := hsuff
    rw [← h.place_eq (hs.ending e he) ht]
    exact exists_written hv
  cases tokens with
  | true =>
    obtain rfl : e = "T.xml" := List.mem_singleton.mp he
    unfold planFor products at hn ⊢
    simp only [if_true, deliver] at hn ⊢
    cases ht : productPlace w path "T.xml" with
    | error reason =>
      rw [ht] at hn
      cases hn
    | ok q => exact ⟨_, List.mem_singleton_self _, rfl⟩
  | false =>
    cases hu : compileText data with
    | error err => simp [planFor, products, hu, deliver] at hn
    | ok u =>
      have hsaves := saves_planFor settings w path hu
      generalize planFor settings false w path data = plan at hn hsaves ⊢
      cases hsaves with
      | codeless => cases hn
      | traceless => cases hn
      | untraced htrace hc =>
        obtain rfl : e = settings.extension := by simpa [suffixes, htrace] using he
        exact ⟨_, List.mem_singleton_self _, hc⟩
      | traced htrace hc ht =>
        have hor : e = settings.extension ∨ e = settings.traceExtension := by
          simpa [suffixes, htrace] using he
        rcases hor with rfl | rfl
        · exact ⟨_, List.mem_cons_self, hc⟩
        · exact ⟨_, List.mem_cons_of_mem _ (List.mem_singleton_self _), ht⟩

/-- Two sources that write to one place are one source, and write the same there. -/
theorem Input.agree {path' base' data' : Text} {dir' : Place} {x' : Text}
    (h : Input w path dir base data) (h' : Input w path' dir' base' data')
    (hs : Separate (suffixes settings tokens))
    (hx : written p (planFor settings tokens w path data).writes = some x)
    (hx' : written p (planFor settings tokens w path' data').writes = some x') : x = x' := by
  obtain ⟨e, he, rfl, hm, -⟩ := h.written_planFor hs hx
  obtain ⟨e', he', hp, hm', -⟩ := h'.written_planFor hs hx'
  obtain ⟨hname, rfl⟩ := List.cons.inj hp
  obtain rfl := hs.eq_of_append e he e' he' base base' hname
  obtain rfl := List.append_cancel_right hname
  have hd : some (Entry.file data) = some (Entry.file data') := h.entry_eq.symm.trans h'.entry_eq
  cases hd
  rw [hm] at hm'
  exact Option.some.inj hm'

end

/-- The failure of a file that is built alone. -/
def failureOf (log : Log) (settings : Settings) (tokens : Bool) (w : Workspace) (path : Text) :
    Option Failure :=
  ((job log settings tokens path : StateM Workspace (Option Failure)).run w).1

/-- The writes that are made for a file: none unless it is a source that can be read. -/
def writesOf (settings : Settings) (tokens : Bool) (w : Workspace) (path : Text) : List Write :=
  if Path.extension path = sourceExtension then
    match w.files.read w.workingDirectory path with
    | .ok data => (planFor settings tokens w path data).writes
    | .error _ => []
  else []

theorem Does.fst_run {α : Type} {p : StateM Workspace α} {w : Workspace} {a : α} {writes : List Write}
    (h : Does p w a writes) : (p.run w).1 = a := by
  obtain ⟨errors, hp⟩ := h
  rw [hp]

section

variable {log : Log} {settings : Settings} {tokens : Bool} {w w' : Workspace} {paths order : List Text}
  {path base data x : Text} {dir p : Place}

theorem Input.writesOf_eq (h : Input w path dir base data)
    (he : Path.extension path = sourceExtension) :
    writesOf settings tokens w path = (planFor settings tokens w path data).writes := by
  unfold writesOf
  rw [if_pos he, h.read_later (later_refl h.linkless)]

namespace Buildable

variable (h : Buildable log settings w paths)

include h

theorem exists_input (hm : path ∈ paths) (he : Path.extension path = sourceExtension) :
    ∃ dir base data, Input w path dir base data :=
  Command.exists_input h.linkless (h.stat_eq path hm) he

/-- Whatever was built before, a file comes out as if it were built alone. -/
theorem does_job (hm : path ∈ paths) (hw : Later w w') :
    Does (job log settings tokens path) w' (failureOf log settings tokens w path)
      (writesOf settings tokens w path) := by
  by_cases he : Path.extension path = sourceExtension
  · obtain ⟨dir, base, data, hi⟩ := h.exists_input hm he
    have halone := hi.does_job (later_refl h.linkless) h.log_eq he (h.separate tokens)
    rw [hi.writesOf_eq he, failureOf, halone.fst_run]
    exact hi.does_job hw h.log_eq he (h.separate tokens)
  · have hn : ∀ w' : Workspace, Does (job log settings tokens path) w' (some ⟨path, .notJack⟩) [] :=
      fun w' => does_job_of_extension_ne h.log_eq he
    rw [failureOf, (hn w).fst_run, writesOf, if_neg he]
    exact hn w'

/-- Only a source is written anything of. -/
theorem exists_input_of_written (hm : path ∈ paths)
    (hx : written p (writesOf settings tokens w path) = some x) :
    ∃ dir base data, Input w path dir base data ∧
      written p (planFor settings tokens w path data).writes = some x := by
  by_cases he : Path.extension path = sourceExtension
  · obtain ⟨dir, base, data, hi⟩ := h.exists_input hm he
    rw [hi.writesOf_eq he] at hx
    exact ⟨dir, base, data, hi, hx⟩
  · rw [writesOf, if_neg he] at hx
    cases hx

theorem writable (tokens : Bool) (hm : path ∈ paths) :
    ∀ v ∈ writesOf settings tokens w path, Writable w v.place := by
  intro v hv
  obtain ⟨x, hx⟩ := exists_written hv
  obtain ⟨dir, base, data, hi, hx⟩ := h.exists_input_of_written hm hx
  obtain ⟨e, he, -, -, ht⟩ := hi.written_planFor (h.separate tokens) hx
  exact hi.writable (h.separate tokens) he ht

theorem does_jobs (tokens : Bool) (hm : order ⊆ paths) (hw : Later w w') :
    Does (order.filterMapM (job log settings tokens)) w'
      (order.filterMap (failureOf log settings tokens w))
      (order.flatMap (writesOf settings tokens w)) := by
  induction order generalizing w' with
  | nil => exact .pure _ _
  | cons path order ih =>
    obtain ⟨hpath, horder⟩ := List.cons_subset.mp hm
    rw [List.filterMapM_cons, List.flatMap_cons]
    refine (h.does_job hpath hw).bind fun errors => ?_
    have hlater := hw.putAll (h.writable tokens hpath) errors
    cases hf : failureOf log settings tokens w path with
    | none =>
      rw [List.filterMap_cons_none hf]
      exact ih horder hlater
    | some f =>
      rw [List.filterMap_cons_some hf]
      exact (ih horder hlater).last fun _ => .pure _ _

theorem agree (tokens : Bool) (p : Place) : ∀ a ∈ paths, ∀ b ∈ paths, ∀ x y,
    written p (writesOf settings tokens w a) = some x →
      written p (writesOf settings tokens w b) = some y → x = y := by
  intro a ha b hb x y hx hy
  obtain ⟨_, _, _, hi, hx⟩ := h.exists_input_of_written ha hx
  obtain ⟨_, _, _, hj, hy⟩ := h.exists_input_of_written hb hy
  exact hi.agree hj (h.separate tokens) hx hy

end Buildable

end

/-- What building the files in the given order comes to. -/
def built (log : Log) (settings : Settings) (tokens : Bool) (w : Workspace) (order : List Text) :
    List Failure × Workspace :=
  (build log settings tokens order : StateM Workspace (List Failure)).run w

/-- The products of a file stand where they belong. Where code and trace share a path, the trace does. -/
def Delivered (settings : Settings) (tokens : Bool) (w : Workspace) (files : FileSystem) (path : Text) :
    Prop :=
  ∃ data, w.files.read w.workingDirectory path = .ok data ∧
    if tokens then
      files.read w.workingDirectory (Path.withExtension path "T.xml") =
        .ok (TokenDump.ofTokens (Lexer.ofText data).tokens.1).written
    else
      ∃ u, compileText data = .ok u ∧
        ((settings.trace = true → settings.extension ≠ settings.traceExtension) →
          files.read w.workingDirectory (Path.withExtension path settings.extension) = .ok u.code) ∧
        (settings.trace = true →
          files.read w.workingDirectory (Path.withExtension path settings.traceExtension) = .ok u.xml)

/-- The failures and the files that building leaves, as the files before it settle them. -/
structure Built (log : Log) (settings : Settings) (tokens : Bool) (w : Workspace) (paths : List Text)
    (failures : List Failure) (files : FileSystem) : Prop where
  /-- There is one failure for each path in the list that fails when it is built alone. -/
  failures_perm : failures.Perm (paths.filterMap (failureOf log settings tokens w))
  path_eq : ∀ path ∈ paths, ∀ f, failureOf log settings tokens w path = some f → f.path = path
  notJack : ∀ path ∈ paths, Path.extension path ≠ sourceExtension →
    failureOf log settings tokens w path = some ⟨path, .notJack⟩
  /-- There is one way to sort the failures by path, and so they are sorted. -/
  sorted_iff : ∀ l : List Failure, l.Perm failures →
    (l.Pairwise (fun a b => a.path ≤ b.path) ↔ l = failures)
  delivered : ∀ path ∈ paths, failureOf log settings tokens w path = none →
    Delivered settings tokens w files path
  /-- Nothing else changes. -/
  untouched : ∀ p, (∀ path ∈ paths, ∀ e ∈ suffixes settings tokens, productPlace w path e ≠ .ok p) →
    files.entry? p = w.files.entry? p

section

variable {log : Log} {settings : Settings} {tokens : Bool} {w : Workspace} {paths order : List Text}
  {path base data e x : Text} {dir p : Place}

theorem pairwise_mergeSort_path (l : List Failure) :
    (l.mergeSort fun a b => Text.le a.path b.path).Pairwise fun a b => a.path ≤ b.path := by
  have hs : (l.mergeSort fun a b => Text.le a.path b.path).Pairwise
      fun a b => Text.le a.path b.path = true := by
    apply List.pairwise_mergeSort
    · intro a b c hab hbc
      unfold Text.le at hab hbc ⊢
      rw [decide_eq_true_eq] at hab hbc ⊢
      exact List.le_trans hab hbc
    · intro a b
      unfold Text.le
      rw [Bool.or_eq_true, decide_eq_true_eq, decide_eq_true_eq]
      exact List.le_total _ _
  exact hs.imp fun hab => of_decide_eq_true hab

theorem Input.failureOf_eq (h : Input w path dir base data) (hlog : log.file = [])
    (he : Path.extension path = sourceExtension) (hs : Separate (suffixes settings tokens)) :
    failureOf log settings tokens w path =
      (planFor settings tokens w path data).error?.map (Failure.mk path) :=
  (h.does_job (later_refl h.linkless) hlog he hs).fst_run

theorem failureOf_of_extension_ne (hlog : log.file = []) (he : Path.extension path ≠ sourceExtension) :
    failureOf log settings tokens w path = some ⟨path, .notJack⟩ :=
  (does_job_of_extension_ne hlog he).fst_run

namespace Buildable

variable (h : Buildable log settings w paths)

include h

theorem exists_built (tokens : Bool) (hm : order ⊆ paths) :
    ∃ errors, built log settings tokens w order =
      ((order.filterMap (failureOf log settings tokens w)).mergeSort
          fun a b => Text.le a.path b.path,
        { w with
          files := w.files.putAll (order.flatMap (writesOf settings tokens w))
          errors := errors }) :=
  (h.does_jobs tokens hm (later_refl h.linkless)).last fun _ => .pure _ _

theorem path_of_failureOf {f : Failure} (hm : path ∈ paths)
    (hf : failureOf log settings tokens w path = some f) : f.path = path := by
  by_cases he : Path.extension path = sourceExtension
  · obtain ⟨dir, base, data, hi⟩ := h.exists_input hm he
    rw [hi.failureOf_eq h.log_eq he (h.separate tokens)] at hf
    obtain ⟨err, -, rfl⟩ := Option.map_eq_some_iff.mp hf
    rfl
  · rw [failureOf_of_extension_ne h.log_eq he] at hf
    cases hf
    rfl

/-- Failures of one path are one failure. -/
theorem eq_of_path_eq {f g : Failure}
    (hf : f ∈ paths.filterMap (failureOf log settings tokens w))
    (hg : g ∈ paths.filterMap (failureOf log settings tokens w)) (hp : f.path = g.path) : f = g := by
  obtain ⟨path, hm, hf⟩ := List.mem_filterMap.mp hf
  obtain ⟨path', hm', hg⟩ := List.mem_filterMap.mp hg
  rw [h.path_of_failureOf hm hf, h.path_of_failureOf hm' hg] at hp
  rw [hp, hg] at hf
  exact (Option.some.inj hf).symm

/-- Only what some file writes to a place stands there in the end. -/
theorem written_iff (tokens : Bool) (hm : order.Perm paths) :
    written p (order.flatMap (writesOf settings tokens w)) = some x ↔
      ∃ path ∈ paths, written p (writesOf settings tokens w path) = some x := by
  rw [written_flatMap_iff]
  · simp only [hm.mem_iff]
  · intro a ha b hb
    exact h.agree tokens p a (hm.mem_iff.mp ha) b (hm.mem_iff.mp hb)

theorem writable_of_mem (tokens : Bool) (hm : order ⊆ paths) :
    ∀ v ∈ order.flatMap (writesOf settings tokens w), Writable w v.place := by
  intro v hv
  obtain ⟨path, hpath, hv⟩ := List.mem_flatMap.mp hv
  exact h.writable tokens (hm hpath) v hv

theorem later_built (tokens : Bool) (hm : order ⊆ paths) :
    Later w (built log settings tokens w order).2 := by
  obtain ⟨errors, hb⟩ := h.exists_built tokens hm
  rw [hb]
  exact (later_refl h.linkless).putAll (h.writable_of_mem tokens hm) errors

theorem entry?_built (tokens : Bool) (hm : order ⊆ paths) (p : Place) :
    entry? (built log settings tokens w order).2.files p =
      (((written p (order.flatMap (writesOf settings tokens w))).map .file).or <| w.files.entry? p) := by
  obtain ⟨errors, hb⟩ := h.exists_built tokens hm
  rw [hb]
  exact entry?_putAll w.files (fun v hv => (h.writable_of_mem tokens hm v hv).ne_nil) p

/-- A source that does not fail is found behind every ending as what is made of it. -/
theorem read_built (hm : order.Perm paths) (hpath : path ∈ paths)
    (hi : Input w path dir base data) (hx : Path.extension path = sourceExtension)
    (hf : failureOf log settings tokens w path = none) (he : e ∈ suffixes settings tokens) :
    ∃ x, made settings tokens data e = some x ∧
      (built log settings tokens w order).2.files.read w.workingDirectory
        (Path.withExtension path e) = .ok x := by
  have hs := h.separate tokens
  rw [hi.failureOf_eq h.log_eq hx hs, Option.map_eq_none_iff] at hf
  obtain ⟨x, hw⟩ := hi.written_of_success hs hf he
  obtain ⟨e', he', hp, hmade, ht⟩ := hi.written_planFor hs hw
  have hname : base ++ e = base ++ e' := (List.cons.inj hp).1
  obtain rfl : e = e' := List.append_cancel_left hname
  rw [← hi.writesOf_eq hx] at hw
  have hall := (h.written_iff tokens hm).mpr ⟨path, hpath, hw⟩
  have hentry := h.entry?_built tokens hm.subset ((base ++ e) :: dir)
  rw [hall] at hentry
  have hlater := h.later_built tokens hm.subset
  exact ⟨x, hmade, hi.leads.read_eq hi.linkless hlater.directories (hs.ending e he) ht hentry⟩

theorem delivered (hm : order.Perm paths) (hpath : path ∈ paths)
    (hf : failureOf log settings tokens w path = none) :
    Delivered settings tokens w (built log settings tokens w order).2.files path := by
  by_cases hx : Path.extension path = sourceExtension
  · obtain ⟨dir, base, data, hi⟩ := h.exists_input hpath hx
    have hread := fun e => h.read_built (e := e) hm hpath hi hx hf
    refine ⟨data, hi.read_later (later_refl h.linkless), ?_⟩
    cases tokens with
    | true =>
      obtain ⟨x, hmade, hr⟩ := hread _ (List.mem_singleton_self _)
      cases hmade
      exact hr
    | false =>
      obtain ⟨x, hmade, hr⟩ := hread _ List.mem_cons_self
      cases hu : compileText data with
      | error err => simp [made, hu, Except.toOption] at hmade
      | ok u =>
        refine ⟨u, rfl, fun hne => ?_, fun htrace => ?_⟩
        · rw [made_code hu hne] at hmade
          cases hmade
          exact hr
        · obtain ⟨y, hmade, hr⟩ := hread settings.traceExtension (by simp [suffixes, htrace])
          rw [made_trace hu htrace] at hmade
          cases hmade
          exact hr
  · rw [failureOf_of_extension_ne h.log_eq hx] at hf
    cases hf

theorem untouched (hm : order.Perm paths)
    (hp : ∀ path ∈ paths, ∀ e ∈ suffixes settings tokens, productPlace w path e ≠ .ok p) :
    entry? (built log settings tokens w order).2.files p = w.files.entry? p := by
  have hentry := h.entry?_built tokens hm.subset p
  cases hx : written p (order.flatMap (writesOf settings tokens w)) with
  | none =>
    rw [hx] at hentry
    exact hentry
  | some x =>
    obtain ⟨path, hpath, hx⟩ := (h.written_iff tokens hm).mp hx
    obtain ⟨dir, base, data, hi, hx⟩ := h.exists_input_of_written hpath hx
    obtain ⟨e, he, -, -, ht⟩ := hi.written_planFor (h.separate tokens) hx
    exact absurd ht (hp path hpath e he)

theorem failures_built (tokens : Bool) (hm : order.Perm paths) :
    (built log settings tokens w order).1.Perm (paths.filterMap (failureOf log settings tokens w)) ∧
      (built log settings tokens w order).1.Pairwise fun a b => a.path ≤ b.path := by
  obtain ⟨errors, hb⟩ := h.exists_built tokens hm.subset
  rw [hb]
  exact ⟨(List.mergeSort_perm _ _).trans (hm.filterMap _), pairwise_mergeSort_path _⟩

/-- Failures can be sorted by path in one way only. -/
theorem failures_unique {a b : List Failure}
    (ha : a.Perm (paths.filterMap (failureOf log settings tokens w)))
    (hb : b.Perm (paths.filterMap (failureOf log settings tokens w)))
    (hsa : a.Pairwise fun f g => f.path ≤ g.path) (hsb : b.Pairwise fun f g => f.path ≤ g.path) :
    a = b := by
  refine (ha.trans hb.symm).eq_of_pairwise (fun f g hf hg hle hge => ?_) hsa hsb
  exact h.eq_of_path_eq (ha.mem_iff.mp hf) (hb.mem_iff.mp hg) (List.le_antisymm hle hge)

end Buildable

end

/-- Whatever the order in which files are built, the failures and the files in the end are the same: those of
files that are built alone. -/
theorem build_order_irrelevant {log : Log} {settings : Settings} {w : Workspace} {paths : List Text}
    (h : Buildable log settings w paths) (tokens : Bool) (a b : List Text) (ha : a.Perm paths)
    (hb : b.Perm paths) :
    (built log settings tokens w a).1 = (built log settings tokens w b).1 ∧
      (∀ p, entry? (built log settings tokens w a).2.files p =
        entry? (built log settings tokens w b).2.files p) ∧
      Built log settings tokens w paths (built log settings tokens w a).1
        (built log settings tokens w a).2.files := by
  obtain ⟨hpa, hsa⟩ := h.failures_built tokens ha
  obtain ⟨hpb, hsb⟩ := h.failures_built tokens hb
  refine ⟨h.failures_unique hpa hpb hsa hsb, fun p => ?_, ?_⟩
  · have hw : written p (a.flatMap (writesOf settings tokens w)) =
        written p (b.flatMap (writesOf settings tokens w)) :=
      Option.ext fun x => (h.written_iff tokens ha).trans (h.written_iff tokens hb).symm
    rw [h.entry?_built tokens ha.subset, h.entry?_built tokens hb.subset, hw]
  · exact {
      failures_perm := hpa
      path_eq := fun path hm f hf => h.path_of_failureOf hm hf
      notJack := fun path _ he => failureOf_of_extension_ne h.log_eq he
      sorted_iff := fun l hl =>
        ⟨fun hs => h.failures_unique (hl.trans hpa) hpa hs hsa, fun he => he ▸ hsa⟩
      delivered := fun path hm hf => h.delivered ha hm hf
      untouched := fun p hp => h.untouched ha hp }

namespace Sample

/-- A class with a function, a class with a stray character, and a file that is no source. -/
def workspace : Workspace where
  files := ⟨[(["A.jack"], .file "class A \x7b function void f() \x7b return; \x7d \x7d"),
    (["B.jack"], .file "class B \x7b # \x7d"), (["notes"], .file [])]⟩

/-- The class is named twice. -/
def paths : List Text := ["notes", "A.jack", "B.jack", "./A.jack"]

def log : Log := ⟨0, []⟩

theorem buildable : Buildable log {} workspace paths where
  log_eq := rfl
  linkless := by
    intro p target
    unfold entry? workspace
    split
    · exact nofun
    · simp only [List.lookup_cons, List.lookup_nil]
      repeat' split
      all_goals exact nofun
  stat_eq := by decide +kernel
  extension := ⟨⟨⟨[0x76, 0x6D], rfl, by decide⟩, by decide⟩, by decide⟩
  traceExtension := productExtension_xml

theorem failureOf_class : failureOf log {} false workspace "A.jack" = none :=
  Option.isNone_iff_eq_none.mp (by decide +kernel)

end Sample

theorem build_order_irrelevant_sample :
    (built Sample.log {} false Sample.workspace Sample.paths).1 =
        (built Sample.log {} false Sample.workspace Sample.paths.reverse).1 ∧
      ((built Sample.log {} false Sample.workspace Sample.paths).1.map Failure.path).Perm
        ["notes", "B.jack"] ∧
      Delivered {} false Sample.workspace
        (built Sample.log {} false Sample.workspace Sample.paths).2.files "A.jack" ∧
      ((built Sample.log {} false Sample.workspace Sample.paths).2.files.read
        Sample.workspace.workingDirectory "A.vm").toOption =
          some "function A.f 0\npush constant 0\nreturn\n" := by
  obtain ⟨hf, -, hb⟩ := build_order_irrelevant Sample.buildable false Sample.paths Sample.paths.reverse
    (.refl _) (List.reverse_perm _)
  refine ⟨hf, ?_, hb.delivered "A.jack" (by decide +kernel) Sample.failureOf_class, by decide +kernel⟩
  have hp := hb.failures_perm.map Failure.path
  have he : (Sample.paths.filterMap (failureOf Sample.log {} false Sample.workspace)).map Failure.path =
      ["notes", "B.jack"] := by decide +kernel
  rwa [he] at hp

end Jack.Command
