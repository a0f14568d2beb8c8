import Jack.Command.Build
import Jack.Proofs.Files

/-! What becomes of one file, on a host in memory: what is written where, and the failure if there is one, are
settled by the files as they are before any is written. -/

namespace Jack.Command

open FileSystem

variable {α β : Type}

/-- Running gives the value and makes the writes. What it reports does not matter. -/
def Does (p : StateM Workspace α) (w : Workspace) (a : α) (writes : List Write) : Prop :=
  ∃ errors, p.run w = (a, { w with files := w.files.putAll writes, errors := errors })

namespace Does

variable {p : StateM Workspace α} {f : α → StateM Workspace β} {w : Workspace} {a : α} {b : β}
  {writes more : List Write}

theorem pure (a : α) (w : Workspace) : Does (Pure.pure a) w a [] := ⟨w.errors, rfl⟩

theorem bind (h : Does p w a writes)
    (hf : ∀ errors, Does (f a) { w with files := w.files.putAll writes, errors := errors } b more) :
    Does (p >>= f) w b (writes ++ more) := by
  obtain ⟨errors, hp⟩ := h
  obtain ⟨errors', hb⟩ := hf errors
  refine ⟨errors', ?_⟩
  rw [StateT.run_bind, hp]
  change (f a).run _ = _
  rw [hb, putAll_append]

theorem last (h : Does p w a writes)
    (hf : ∀ errors, Does (f a) { w with files := w.files.putAll writes, errors := errors } b []) :
    Does (p >>= f) w b writes := by
  have hb := h.bind hf
  rwa [List.append_nil] at hb

/-- What makes no writes is followed by what follows it. -/
theorem skip (h : Does p w a []) (hf : ∀ errors, Does (f a) { w with errors := errors } b more) :
    Does (p >>= f) w b more :=
  h.bind hf

end Does

section

variable {log : Log} {w : Workspace}

theorem does_report (text : Text) : Does (Host.report text) w () [] := ⟨w.errors ++ text, rfl⟩

theorem does_write (h : log.file = []) (message : Message) : Does (log.write message) w () [] := by
  have hp : ∀ (w : Workspace) (text : Text), Does (log.put text) w () [] := by
    intro w text
    unfold Log.put
    rw [h]
    exact does_report text
  unfold Log.write
  split
  · have hs : Does (Host.timeStamp : StateM Workspace Text) w w.timeStamp [] := ⟨w.errors, rfl⟩
    exact hs.skip fun _ => hp _ _
  · exact .pure _ _

theorem does_notes (h : log.file = []) (notes : List Note) :
    Does (notes.forM fun note => log.write (.ofNote note)) w () [] := by
  induction notes generalizing w with
  | nil => exact .pure _ _
  | cons note notes ih => exact (does_write h _).skip fun _ => ih

theorem does_load (path : Text) : Does (Host.load path) w (w.files.read w.workingDirectory path) [] :=
  ⟨w.errors, rfl⟩

theorem does_store {path : Text} {p : Place} (h : w.files.target w.workingDirectory path = .ok p)
    (data : Text) : Does (Host.store path data) w (.ok ()) [⟨p, data⟩] := by
  have hu : w.files.update w.workingDirectory path (fun _ => data) = .ok (w.files.put p (.file data)) := by
    rw [update_eq_target, h]
    rfl
  refine ⟨w.errors, ?_⟩
  change (Workspace.change path fun _ => data).run w = _
  unfold Workspace.change
  simp [hu]
  rfl

theorem does_store_of_error {path : Text} {reason : Fault.Reason}
    (h : w.files.target w.workingDirectory path = .error reason) (data : Text) :
    Does (Host.store path data) w (.error ⟨.open, path, reason⟩) [] := by
  have hu : w.files.update w.workingDirectory path (fun _ => data) = .error ⟨.open, path, reason⟩ := by
    rw [update_eq_target, h]
    rfl
  refine ⟨w.errors, ?_⟩
  change (Workspace.change path fun _ => data).run w = _
  unfold Workspace.change
  simp [hu]
  rfl

end

/-- A file that is made from a source: what its path ends in, its bytes, and how it is said that it could
not be written. -/
structure Product where
  suffix : Text
  data : Text
  error : Text → Fault → FileError

/-- What becomes of a file: the error, if there is one, and the writes that are made. -/
structure Plan where
  error? : Option FileError
  writes : List Write

/-- What is made from the bytes of a source, in order, and what is said when all of it is written. -/
def products (settings : Settings) (tokens : Bool) (data : Text) : List Product × Option FileError :=
  if tokens then
    let dump := TokenDump.ofTokens (Lexer.ofText data).tokens.1
    ([⟨"T.xml", dump.written, .dumpUnopened⟩], dump.illegal?.map .illegal)
  else
    match compileText data with
    | .error e => ([], some (.rejected e))
    | .ok u =>
      let trace : List Product :=
        if settings.trace then [⟨settings.traceExtension, u.xml, .traceUnwritten⟩] else []
      (⟨settings.extension, u.code, .codeUnwritten⟩ :: trace, none)

/-- Where the product of a file with the given ending is written. -/
def productPlace (w : Workspace) (path e : Text) : Except Fault.Reason Place :=
  w.files.target w.workingDirectory (Path.withExtension path e)

/-- Writes products of a file up to the first that cannot be written. -/
def deliver (w : Workspace) (path : Text) (last : Option FileError) : List Product → Plan
  | [] => ⟨last, []⟩
  | product :: rest =>
    match productPlace w path product.suffix with
    | .error reason =>
      let out := Path.withExtension path product.suffix
      ⟨some (product.error out ⟨.open, out, reason⟩), []⟩
    | .ok p =>
      let plan := deliver w path last rest
      { plan with writes := ⟨p, product.data⟩ :: plan.writes }

/-- The plan for a file of the given bytes. -/
def planFor (settings : Settings) (tokens : Bool) (w : Workspace) (path data : Text) : Plan :=
  deliver w path (products settings tokens data).2 (products settings tokens data).1

def Plan.result (plan : Plan) (out : Text) : Except FileError Text :=
  match plan.error? with
  | some e => .error e
  | none => .ok out

/-- What the paths of the products end in. -/
def suffixes (settings : Settings) (tokens : Bool) : List Text :=
  if tokens then ["T.xml"]
  else settings.extension :: if settings.trace then [settings.traceExtension] else []

/-- Endings that never make the path of a source, and that can be told apart behind any stem. -/
structure Separate (endings : List Text) : Prop where
  ending : ∀ e ∈ endings, Path.Ending e
  extension_ne : ∀ e ∈ endings, ∀ s, Path.extension (s ++ e) ≠ sourceExtension
  eq_of_append : ∀ e ∈ endings, ∀ e' ∈ endings, ∀ s s' : Text, s ++ e = s' ++ e' → e = e'

/-- A workspace after some files were made or changed. Directories are as they were, and so are sources. -/
structure Later (w w' : Workspace) : Prop where
  workingDirectory_eq : w'.workingDirectory = w.workingDirectory
  directories : SameDirectories w.files w'.files
  source_eq : ∀ name dir, Path.extension name = sourceExtension →
    w'.files.entry? (name :: dir) = w.files.entry? (name :: dir)

/-- A path to a source with the given bytes, in a directory under a name that starts with `base`. -/
structure Input (w : Workspace) (path : Text) (dir : Place) (base data : Text) : Prop where
  linkless : w.files.Linkless
  path_eq : Path.stem path ++ sourceExtension = path
  leads : Leads w.files w.workingDirectory (Path.stem path) dir base
  target_eq : w.files.target w.workingDirectory path = .ok ((base ++ sourceExtension) :: dir)
  entry_eq : w.files.entry? ((base ++ sourceExtension) :: dir) = some (.file data)

section

variable {log : Log} {settings : Settings} {w w' : Workspace} {path base data e : Text} {dir p : Place}

theorem plain_sourceExtension : Path.Plain sourceExtension where
  dotted := ⟨[0x6A, 0x61, 0x63, 0x6B], rfl, by decide⟩
  slashless := by decide

theorem exists_input (hl : w.files.Linkless)
    (hs : w.files.stat w.workingDirectory path = .ok .file)
    (he : Path.extension path = sourceExtension) : ∃ dir base data, Input w path dir base data := by
  have hp : Path.stem path ++ sourceExtension = path := by
    rw [← he]
    exact Path.stem_append_extension path
  rw [← hp] at hs
  obtain ⟨dir, base, data, hd, ht, hf⟩ := exists_leads hl plain_sourceExtension.ending hs
  rw [hp] at ht
  exact ⟨dir, base, data, hl, hp, hd, ht, hf⟩

theorem later_refl (h : w.files.Linkless) : Later w w := ⟨rfl, h.sameDirectories, fun _ _ _ => rfl⟩

/-- Products go where they would go before anything was written. -/
theorem Input.productPlace_later (h : Input w path dir base data) (hw : Later w w')
    (he : Path.Ending e) : productPlace w' path e = productPlace w path e := by
  unfold productPlace
  rw [hw.workingDirectory_eq]
  exact h.leads.target_eq h.linkless hw.directories he

theorem Input.place_eq (h : Input w path dir base data) (he : Path.Ending e)
    (ht : productPlace w path e = .ok p) : p = (base ++ e) :: dir :=
  (h.leads.target_ok h.linkless he ht).1

theorem Input.read_later (h : Input w path dir base data) (hw : Later w w') :
    w'.files.read w'.workingDirectory path = .ok data := by
  have hx : w'.files.entry? ((base ++ sourceExtension) :: dir) = some (.file data) := by
    rw [hw.source_eq _ _ (Path.extension_append plain_sourceExtension base)]
    exact h.entry_eq
  have ht := h.target_eq
  rw [← h.path_eq] at ht
  rw [hw.workingDirectory_eq, ← h.path_eq]
  exact h.leads.read_eq h.linkless hw.directories plain_sourceExtension.ending ht hx

/-- A place where a file can be written that is no source. -/
structure Writable (w : Workspace) (p : Place) : Prop where
  cons : ∃ name dir, p = name :: dir ∧ Path.extension name ≠ sourceExtension
  entry_ne : w.files.entry? p ≠ some .directory

theorem Writable.ne_nil (h : Writable w p) : p ≠ [] := by
  obtain ⟨name, dir, rfl, -⟩ := h.cons
  exact List.cons_ne_nil _ _

/-- Writing keeps directories and sources. -/
theorem Later.write (hw : Later w w') (hp : Writable w p) (x errors : Text) :
    Later w { w' with files := w'.files.put p (.file x), errors := errors } := by
  have hput := entry?_put w'.files hp.ne_nil (.file x)
  refine ⟨hw.workingDirectory_eq, ⟨fun q target => ?_, fun q => ?_⟩, fun name d hn => ?_⟩
  · change entry? (w'.files.put p _) q ≠ _
    rw [hput]
    split
    · exact nofun
    · exact hw.directories.linkless q target
  · change entry? (w'.files.put p _) q = _ ↔ _
    rw [hput]
    split
    next hq =>
      rw [hq]
      exact iff_of_false nofun hp.entry_ne
    next => exact hw.directories.directory_iff q
  · change entry? (w'.files.put p _) _ = _
    obtain ⟨name', dir, rfl, hne⟩ := hp.cons
    have hq : name :: d ≠ name' :: dir := fun hq => hne ((List.cons.inj hq).1 ▸ hn)
    rw [hput, if_neg hq]
    exact hw.source_eq name d hn

theorem Later.putAll {writes : List Write} (hw : Later w w') (h : ∀ v ∈ writes, Writable w v.place)
    (errors : Text) : Later w { w' with files := w'.files.putAll writes, errors := errors } := by
  induction writes generalizing w' with
  | nil => exact ⟨hw.workingDirectory_eq, hw.directories, hw.source_eq⟩
  | cons v writes ih =>
    exact ih (hw.write (h v List.mem_cons_self) v.data errors) fun u hu => h u (List.mem_cons_of_mem _ hu)

theorem Input.writable {endings : List Text} (h : Input w path dir base data) (hs : Separate endings)
    (he : e ∈ endings) (ht : productPlace w path e = .ok p) : Writable w p := by
  obtain ⟨rfl, hd, -⟩ := h.leads.target_ok h.linkless (hs.ending e he) ht
  exact ⟨⟨base ++ e, dir, rfl, hs.extension_ne e he base⟩, hd⟩

theorem Input.does_openSource (h : Input w path dir base data) (hw : Later w w') :
    Does (openSource path) w' (.ok (Lexer.ofText data)) [] := by
  unfold openSource
  have hr := does_load (w := w') path
  rw [h.read_later hw] at hr
  exact hr.skip fun _ => .pure _ _

theorem Later.report (h : Later w w') (errors : Text) : Later w { w' with errors := errors } :=
  ⟨h.workingDirectory_eq, h.directories, h.source_eq⟩

theorem Input.does_dumpFile (h : Input w path dir base data) (hw : Later w w')
    (hs : Separate (suffixes settings true)) :
    Does (dumpFile path) w' ((planFor settings true w path data).result (Path.withExtension path "T.xml"))
      (planFor settings true w path data).writes := by
  have he : Text.ofString "T.xml" ∈ suffixes settings true := List.mem_singleton_self _
  unfold dumpFile
  refine (h.does_openSource hw).skip fun errors => ?_
  have ht := h.productPlace_later (hw.report errors) (hs.ending _ he)
  unfold planFor products deliver
  simp only [if_true]
  cases hx : productPlace w path "T.xml" with
  | error reason =>
    refine (does_store_of_error (ht.trans hx) _).skip fun _ => ?_
    exact .pure _ _
  | ok p =>
    refine (does_store (ht.trans hx) _).bind fun _ => ?_
    cases hi : (TokenDump.ofTokens (Lexer.ofText data).tokens.1).illegal? with
    | none => exact .pure _ _
    | some t => exact .pure _ _

theorem Input.does_save {u : Compiled} (hc : compileText data = .ok u)
    (h : Input w path dir base data) (hw : Later w w') (hs : Separate (suffixes settings false)) :
    Does (save settings path u) w'
      ((planFor settings false w path data).result (Path.withExtension path settings.extension))
      (planFor settings false w path data).writes := by
  have he : settings.extension ∈ suffixes settings false := List.mem_cons_self
  have ht := h.productPlace_later hw (hs.ending _ he)
  unfold save planFor products
  simp only [hc, Bool.false_eq_true, if_false, deliver]
  cases hx : productPlace w path settings.extension with
  | error reason =>
    refine (does_store_of_error (ht.trans hx) _).skip fun _ => ?_
    exact .pure _ _
  | ok p =>
    refine (does_store (ht.trans hx) _).bind fun errors => ?_
    have hw := hw.write (h.writable hs he hx) u.code errors
    cases htrace : settings.trace with
    | false => exact .pure _ _
    | true =>
      have he : settings.traceExtension ∈ suffixes settings false := by simp [suffixes, htrace]
      have ht := h.productPlace_later hw (hs.ending _ he)
      simp only [Bool.not_true, Bool.false_eq_true, if_false, if_true, deliver]
      cases hy : productPlace w path settings.traceExtension with
      | error reason =>
        refine (does_store_of_error (ht.trans hy) _).skip fun _ => ?_
        exact .pure _ _
      | ok q =>
        refine (does_store (ht.trans hy) _).bind fun _ => ?_
        exact .pure _ _

theorem Input.does_compileFile (h : Input w path dir base data) (hw : Later w w') (hlog : log.file = [])
    (hs : Separate (suffixes settings false)) :
    Does (compileFile log settings path) w'
      ((planFor settings false w path data).result (Path.withExtension path settings.extension))
      (planFor settings false w path data).writes := by
  unfold compileFile
  refine (h.does_openSource hw).skip fun errors => ?_
  refine (does_notes hlog _).skip fun errors => ?_
  have hw := hw.report errors
  cases hc : compileText data with
  | error e =>
    have ho : (compile (Lexer.ofText data).toSource).outcome = .error e := hc
    simp only [ho, planFor, products, hc]
    exact .pure _ _
  | ok u =>
    have ho : (compile (Lexer.ofText data).toSource).outcome = .ok u := hc
    simp only [ho]
    split
    · exact (does_write hlog _).skip fun errors => h.does_save hc (hw.report errors) hs
    · exact h.does_save hc hw hs

theorem Input.does_job {tokens : Bool} (h : Input w path dir base data) (hw : Later w w')
    (hlog : log.file = []) (he : Path.extension path = sourceExtension)
    (hs : Separate (suffixes settings tokens)) :
    Does (job log settings tokens path) w'
      ((planFor settings tokens w path data).error?.map (Failure.mk path))
      (planFor settings tokens w path data).writes := by
  unfold job
  rw [if_neg (not_not_intro he)]
  refine (does_write hlog _).skip fun errors => ?_
  have hw := hw.report errors
  cases tokens with
  | true =>
    refine (h.does_dumpFile hw hs).last fun _ => ?_
    unfold Plan.result
    cases (planFor settings true w path data).error? with
    | none => exact (does_write hlog _).skip fun _ => .pure _ _
    | some e => exact (does_write hlog _).skip fun _ => .pure _ _
  | false =>
    refine (h.does_compileFile hw hlog hs).last fun _ => ?_
    unfold Plan.result
    cases (planFor settings false w path data).error? with
    | none => exact (does_write hlog _).skip fun _ => .pure _ _
    | some e => exact (does_write hlog _).skip fun _ => .pure _ _

theorem does_job_of_extension_ne {tokens : Bool} (hlog : log.file = [])
    (he : Path.extension path ≠ sourceExtension) :
    Does (job log settings tokens path) w' (some ⟨path, .notJack⟩) [] := by
  unfold job
  rw [if_pos he]
  exact (does_write hlog _).skip fun _ => .pure _ _

end

end Jack.Command
