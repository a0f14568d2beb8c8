import Jack.Files.Host
import Jack.Toml.Draft

/-! Settings: what a project configures, and the file it is read from. -/

namespace Jack

structure Settings where
  /-- The extension of code files. -/
  extension : Text := ".vm"
  /-- Whether a trace is written beside each code file. -/
  trace : Bool := false
  /-- The extension of trace files. -/
  traceExtension : Text := ".xml"
  /-- How many files may be compiled at once; at zero, one for every processor. -/
  jobs : Nat := 0
  /-- How much is logged. -/
  verbosity : Int := 0
  /-- The file that is logged to; the standard error stream if empty. -/
  logFile : Text := []
  /-- The file that the settings come from; empty for the defaults. -/
  path : Text := []
  deriving DecidableEq, Repr

namespace Settings

def fileName : Text := "jackc.toml"

/-- How many files may be compiled at once, where that does not depend on the processors. -/
def jobLimit? (s : Settings) : Option Nat := if s.jobs = 0 then none else some s.jobs

def blank : Settings := { extension := [], traceExtension := [] }

def withDefaults (s : Settings) : Settings :=
  let defaults : Settings := {}
  { s with
    extension := if s.extension.isEmpty then defaults.extension else s.extension
    traceExtension := if s.traceExtension.isEmpty then defaults.traceExtension else s.traceExtension }

/-- A field of settings: its name and how a value of it in a document is taken over. -/
abbrev Field := Text × (Toml.Document → Settings → Toml.Node → Option Settings)

/-- A name without regard to case. Two letters outside ASCII count as cases of one inside. -/
def foldCase (name : Text) : Text :=
  (Utf8.pieces name).flatMap fun
    | .char 'ſ' => "s"
    | .char 'K' => "k"
    | .char c => Utf8.encode [c.toLower]
    | .stray b => [b]

/-- The field that a name stands for; one of exactly that name comes first. -/
def fieldOf? (fields : List Field) (name : Text) : Option Field :=
  (fields.find? (·.1 == name)).or (fields.find? (·.1 == foldCase name))

/-- Takes over the entries of a table in the order of their names; those that are no field do not count. -/
def takeFields (fields : List Field) (d : Toml.Document) (s : Settings) (t : Toml.Table) : Option Settings :=
  let entries := t.toList.mergeSort fun a b => Text.le a.1 b.1
  entries.foldlM (fun s (name, node) =>
    match fieldOf? fields name with
    | some field => field.2 d s node
    | none => some s) s

def outputFields : List Field :=
  [("extension", fun _ s v => do some { s with extension := ← v.string? }),
   ("trace", fun _ s v => do some { s with trace := ← v.boolean? }),
   ("trace-extension", fun _ s v => do some { s with traceExtension := ← v.string? })]

def buildFields : List Field :=
  [("jobs", fun _ s v => do some { s with jobs := (← v.integer?).toNat })]

def logFields : List Field :=
  [("verbosity", fun _ s v => do some { s with verbosity := ← v.integer? }),
   ("file", fun _ s v => do some { s with logFile := ← v.string? })]

def sections : List Field :=
  [("output", fun d s v => do takeFields outputFields d s (← d.tableOf? v)),
   ("build", fun d s v => do takeFields buildFields d s (← d.tableOf? v)),
   ("log", fun d s v => do takeFields logFields d s (← d.tableOf? v))]

def parse? (data : Text) : Option Settings := do
  let document ← Toml.parse? data
  let s ← takeFields sections document blank document.root
  some s.withDefaults

inductive Error where
  | unreadable (path : Text) (fault : Fault)
  | malformed (path : Text)
  deriving DecidableEq, Repr

def Error.message : Error → Text
  | .unreadable path fault => "cannot read " ++ path ++ ": " ++ fault.message
  | .malformed path => "parse error in " ++ path ++ ": toml: ..."

variable {m : Type → Type} [Monad m] [Host m]

/-- The settings in a file, as a parser reads them. -/
def load (path : Text) (parse : Text → Option Settings := parse?) : m (Except Error Settings) := do
  match ← Host.load path with
  | .error fault => return .error (.unreadable path fault)
  | .ok data =>
    match parse data with
    | some s => return .ok { s with path }
    | none => return .error (.malformed path)

/-- The settings in the first file that is there; the defaults if none is. -/
def loadFirst (parse : Text → Option Settings) : List Text → m (Except Error Settings)
  | [] => return .ok {}
  | path :: rest => do
    match ← Host.stat path with
    | .ok _ => load path parse
    | .error _ => loadFirst parse rest

/-- The settings of the nearest directory that has some, from a place upwards. -/
def find (start : Text) (parse : Text → Option Settings := parse?) : m (Except Error Settings) := do
  let place := Path.absolute (← Host.workingDirectory) start
  let directories := Path.upwards (Path.parts place)
  loadFirst parse (directories.map fun d => Path.join [Path.ofParts d, fileName])

end Settings

end Jack
