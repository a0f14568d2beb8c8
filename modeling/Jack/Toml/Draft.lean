import Jack.Toml.Document
import Std.Data.HashSet

/-! Drafts: documents under way, and the rules by which statements build them up.

A name is open if it was written on the way to another, by a header or by dots, or as that of an inline
table. An open name may be written once more, which closes it: what stands there is kept, unless an array
was written there last; then the new node takes its place. Every dotted name through a name opens it anew. -/

namespace Jack.Toml

structure Draft where
  document : Document := {}
  /-- The names that are open, their last part first. -/
  opened : Std.HashSet Key := {}
  /-- The names under which an array was written last, their last part first. -/
  arrays : Std.HashSet Key := {}

structure Context where
  /-- Its name, the last part first. -/
  path : Key := []
  table : Nat := 0

namespace Draft

def openName (d : Draft) (path : Key) : Draft := { d with opened := d.opened.insert path }

def closeName (d : Draft) (path : Key) : Draft := { d with opened := d.opened.erase path }

def noteName (d : Draft) (path : Key) (isArray : Bool) : Draft :=
  { d with arrays := if isArray then d.arrays.insert path else d.arrays.erase path }

/-- Notes what was written in a table. An empty name stands for the table itself, if that has a name. -/
def note (d : Draft) (c : Context) (name : Text) (isArray : Bool) : Draft :=
  d.noteName (if name.isEmpty && !c.path.isEmpty then c.path else name :: c.path) isArray

def entry? (d : Draft) (c : Context) (name : Text) : Option Node := d.document.entry? c.table name

def set (d : Draft) (c : Context) (name : Text) (node : Node) : Draft :=
  { d with document := d.document.set c.table name node }

def newTable (d : Draft) : Nat × Draft :=
  let (n, document) := d.document.newTable
  (n, { d with document })

def inside? (d : Draft) (c : Context) (name : Text) : Option Context := do
  some ⟨name :: c.path, ← (← d.entry? c name).inner?⟩

/-- Writes a node under a name that is free or open. -/
def write (d : Draft) (c : Context) (name : Text) (node : Node) : Option Draft :=
  let path := name :: c.path
  if (d.entry? c name).isNone then some (d.set c name node)
  else if !d.opened.contains path then none
  else if d.arrays.contains path then some ((d.closeName path).set c name node)
  else some (d.closeName path)

def startTable (d : Draft) (c : Context) (name : Text) : Option (Draft × Context) := do
  let (new, d) := d.newTable
  let d ← d.write c name (.table new)
  some (d, ← d.inside? c name)

def startElement (d : Draft) (c : Context) (name : Text) : Option (Draft × Context) := do
  let (new, d) := d.newTable
  let d ← match d.entry? c name with
    | none => some (d.set c name (.tables new []))
    | some (.tables latest earlier) => some (d.set c name (.tables new (latest :: earlier)))
    | some _ => none
  some (d, ← d.inside? c name)

/-- Goes to the table of a dotted name; tables that are not there are made as open ones. -/
def makeWay (d : Draft) (c : Context) : Key → Option (Draft × Context)
  | [] => some (d, c)
  | name :: rest => do
    if (d.entry? c name).isSome then d.makeWay (← d.inside? c name) rest
    else
      let (d, c) ← (d.openName (name :: c.path)).startTable c name
      d.makeWay c rest

/-- Goes to the table of a dotted name; all tables on the way are opened and started. -/
def throughDots (d : Draft) (c : Context) : Key → Option (Draft × Context)
  | [] => some (d, c)
  | name :: rest => do
    let (d, c) ← (d.openName (name :: c.path)).startTable c name
    d.throughDots c rest

/-- Writes a node under a dotted name of one table, whatever stood there. Only tables lead on. -/
def overwrite (d : Draft) (c : Context) (name : Text) (node : Node) : Key → Option Draft
  | [] => some (d.set c name node)
  | dot :: rest =>
    match d.entry? c dot with
    | some (.table inner) => d.overwrite ⟨dot :: c.path, inner⟩ name node rest
    | some _ => none
    | none =>
      let (inner, d) := d.newTable
      (d.set c dot (.table inner)).overwrite ⟨dot :: c.path, inner⟩ name node rest

end Draft

def Node.isArray : Node → Bool
  | .array _ => true
  | _ => false

/-- Assigns a value under a dotted name. How the value is entered under the last part of the name is told
by `enter`, which gives its node. -/
def Draft.assignBy (d : Draft) (c : Context) (key : Key)
    (enter : Draft → Context → Text → Option (Draft × Node)) : Option (Draft × Node) := do
  let name ← key.getLast?
  let (d, c) ← d.throughDots c key.dropLast
  let (d, node) ← enter d c name
  let d ← d.write c name node
  some (d.note c name node.isArray, node)

mutual

/-- Enters a value that is to stand under a name. An inline table is entered field by field in the
document, as an element if it stands in an array, and on the side in a table of its own, which is its
node. -/
def Literal.enter (inArray : Bool) (d : Draft) (c : Context) (name : Text) :
    Literal → Option (Draft × Node)
  | .string s => some (d, .string s)
  | .scalar s => some (d, .scalar s)
  | .array items => do
    let d ← items.enter (d.note c name true) c name
    some (d, .array items)
  | .inlineTable fields => do
    let d := d.openName (name :: c.path)
    let (d, inner) ← if inArray then d.startElement c name else d.startTable c name
    let (own, d) := d.newTable
    let d ← fields.enter d inner { inner with table := own }
    some (d, .table own)

def Literals.enter (d : Draft) (c : Context) (name : Text) : Literals → Option Draft
  | .nil => some d
  | .cons first rest => do
    let (d, _) ← first.enter true d c name
    rest.enter d c name

/-- Enters the fields of an inline table, in the document and in a table of its own. In the latter a later
field wins over an earlier one. -/
def Fields.enter (d : Draft) (c own : Context) : Fields → Option Draft
  | .nil => some d
  | .cons key value rest => do
    let (d, node) ← d.assignBy c key fun d c name => value.enter false d c name
    let d ← d.overwrite own (← key.getLast?) node key.dropLast
    rest.enter d c own

end

/-- Adds statements to a draft, to the table of the header before them. -/
def Draft.run (d : Draft) (c : Context) : List Statement → Option Draft
  | [] => some d
  | .table key :: rest => do
    let (d, above) ← d.makeWay {} key.dropLast
    let (d, c) ← d.startTable above (← key.getLast?)
    (d.noteName c.path false).run c rest
  | .element key :: rest => do
    let (d, above) ← d.makeWay {} key.dropLast
    let (d, c) ← d.startElement above (← key.getLast?)
    (d.noteName c.path false).run c rest
  | .assign key value :: rest => do
    let (d, _) ← d.assignBy c key fun d c name => value.enter false d c name
    d.run c rest

def parse? (s : Text) : Option Document := do
  let draft ← Draft.run {} {} (← read? s)
  some draft.document

end Jack.Toml
