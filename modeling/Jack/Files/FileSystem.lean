import Jack.Files.Fault
import Jack.Path

/-! File systems: files, directories and symbolic links by place, and how a path is followed to one. -/

namespace Jack

/-- A place in a file system: the names from the root to it, the last first. -/
abbrev Place := List Text

namespace FileSystem

inductive Entry where
  | file (data : Text)
  | directory
  | link (target : Text)
  deriving DecidableEq, Repr

end FileSystem

/-- What stands at each place. The root is always a directory. A file belongs to one place: there are no hard
links, names are told apart byte by byte, and there are no permissions. That files can be built in any order
rests on this, as writing at one place leaves all others alone. -/
structure FileSystem where
  entries : List (Place × FileSystem.Entry) := []
  deriving Repr

namespace FileSystem

def entry? (fs : FileSystem) (p : Place) : Option Entry :=
  if p.isEmpty then some .directory else fs.entries.lookup p

def put (fs : FileSystem) (p : Place) (e : Entry) : FileSystem :=
  { entries := (p, e) :: fs.entries.filter (·.1 != p) }

def children (fs : FileSystem) (dir : Place) : List (Text × Entry) :=
  let here := fs.entries.filterMap fun (p, e) =>
    match p with
    | name :: above => if above == dir then some (name, e) else none
    | [] => none
  here.mergeSort fun a b => Text.le a.1 b.1

inductive Stop where
  | directory (p : Place)
  /-- At a file; `slashed` if the path goes on with nothing but slashes. -/
  | file (p : Place) (data : Text) (slashed : Bool)
  /-- At a name that a directory does not have. -/
  | absent (p : Place) (slashed : Bool)
  /-- At a link in the directory `dir`, with `rest` still to be walked. -/
  | link (dir : Place) (target : Text) (rest : List Text)
  | blocked (reason : Fault.Reason)

/-! The longest name and the longest path, in bytes, and the most links that are followed for one path. -/

def maxName : Nat := 255

def maxPath : Nat := 4095

def maxLinks : Nat := 40

/-- Walks from a directory along names, up to the first link. -/
def walk (fs : FileSystem) : Place → List Text → Stop
  | dir, [] => .directory dir
  | dir, name :: rest =>
    if name.isEmpty || name == "." then walk fs dir rest
    else if name == ".." then walk fs dir.tail rest
    else if maxName < name.length then .blocked .nameTooLong
    else
      let ends := rest.all List.isEmpty
      match fs.entry? (name :: dir) with
      | some .directory => walk fs (name :: dir) rest
      | some (.link target) => .link dir target rest
      | some (.file data) =>
        if ends then .file (name :: dir) data !rest.isEmpty else .blocked .notDirectory
      | none => if ends then .absent (name :: dir) !rest.isEmpty else .blocked .noEntry

def follow (fs : FileSystem) (links : Nat) (dir : Place) (names : List Text) : Stop :=
  match walk fs dir names, links with
  | .link _ _ _, 0 => .blocked .tooManyLinks
  | .link dir target rest, links + 1 =>
    follow fs links (if Path.isAbsolute target then [] else dir)
      (Text.splitOn Byte.slash target ++ rest)
  | stop, _ => stop

def find (fs : FileSystem) (cwd : Place) (path : Text) : Stop :=
  if path.contains 0 then .blocked .invalidArgument
  else if path.isEmpty then .blocked .noEntry
  else if maxPath < path.length then .blocked .nameTooLong
  else
    follow fs maxLinks (if Path.isAbsolute path then [] else cwd) (Text.splitOn Byte.slash path)

inductive Kind where
  | file
  | directory
  deriving DecidableEq, Repr

def stat (fs : FileSystem) (cwd : Place) (path : Text) : Except Fault.Reason Kind :=
  match fs.find cwd path with
  | .directory _ => .ok .directory
  | .file _ _ false => .ok .file
  | .file _ _ true => .error .notDirectory
  | .absent _ _ => .error .noEntry
  | .link _ _ _ => .error .tooManyLinks
  | .blocked reason => .error reason

/-- The bytes of the file that a path leads to. A directory can be opened, but not read. -/
def read (fs : FileSystem) (cwd : Place) (path : Text) : Except Fault Text :=
  match fs.find cwd path with
  | .directory _ => .error ⟨.read, path, .isDirectory⟩
  | .file _ data false => .ok data
  | .file _ _ true => .error ⟨.open, path, .notDirectory⟩
  | .absent _ _ => .error ⟨.open, path, .noEntry⟩
  | .link _ _ _ => .error ⟨.open, path, .tooManyLinks⟩
  | .blocked reason => .error ⟨.open, path, reason⟩

/-- Changes the file that a path leads to; a file that is not there yet starts empty. -/
def update (fs : FileSystem) (cwd : Place) (path : Text) (change : Text → Text) :
    Except Fault FileSystem :=
  match fs.find cwd path with
  | .directory _ | .file _ _ true | .absent _ true => .error ⟨.open, path, .isDirectory⟩
  | .file p data false => .ok (fs.put p (.file (change data)))
  | .absent p false => .ok (fs.put p (.file (change [])))
  | .link _ _ _ => .error ⟨.open, path, .tooManyLinks⟩
  | .blocked reason => .error ⟨.open, path, reason⟩

def list (fs : FileSystem) (cwd : Place) (path : Text) : Except Fault (List (Text × Entry)) :=
  match fs.find cwd path with
  | .directory p => .ok (fs.children p)
  | .file _ _ _ => .error ⟨.open, path, .notDirectory⟩
  | .absent _ _ => .error ⟨.open, path, .noEntry⟩
  | .link _ _ _ => .error ⟨.open, path, .tooManyLinks⟩
  | .blocked reason => .error ⟨.open, path, reason⟩

def makeDirectories (fs : FileSystem) (dir : Place) : List Text → FileSystem × Place
  | [] => (fs, dir)
  | name :: rest =>
    match fs.follow maxLinks dir [name] with
    | .directory p => makeDirectories fs p rest
    | .absent p _ => makeDirectories (fs.put p .directory) p rest
    | _ => makeDirectories fs (name :: dir) rest

/-- Puts an entry at the end of a chain of names and makes the directories on the way. A file is written
through a link, a link replaces what stood there. -/
def build (fs : FileSystem) (dir : Place) (names : List Text) (e : Entry) : FileSystem :=
  let (fs, parent) := fs.makeDirectories dir names.dropLast
  match e, names.getLast? with
  | _, none => fs
  | .directory, some name => (fs.makeDirectories parent [name]).1
  | .link target, some name => fs.put (name :: parent) (.link target)
  | .file data, some name =>
    match fs.update parent name fun _ => data with
    | .ok fs => fs
    | .error _ => fs

end FileSystem

end Jack
