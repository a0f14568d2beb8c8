import Jack.Files.FileSystem

/-! Hosts: what a program asks of the system it runs on, and a host held in memory. -/

namespace Jack

/-- A name in a directory. A link counts as no directory, wherever it leads. -/
structure Listed where
  name : Text
  isDirectory : Bool
  deriving DecidableEq, Repr

/-- The operations of a host. Paths lead from the working directory, which every host has: unlike the other
questions, asking for it cannot fail. -/
class Host (m : Type → Type) where
  stat : Text → m (Except Fault FileSystem.Kind)
  /-- All bytes of a file. -/
  load : Text → m (Except Fault Text)
  /-- Replaces the bytes of a file, which is made if it is not there. -/
  store : Text → Text → m (Except Fault Unit)
  /-- Adds bytes to a file, which is made if it is not there. -/
  append : Text → Text → m (Except Fault Unit)
  /-- The names in a directory, sorted. -/
  list : Text → m (Except Fault (List Listed))
  workingDirectory : m Text
  /-- Writes to the standard error stream. -/
  report : Text → m Unit
  /-- The present time, as log lines show it. -/
  timeStamp : m Text

structure Workspace where
  files : FileSystem := {}
  workingDirectory : Place := []
  /-- What was written to the standard error stream. -/
  errors : Text := []
  /-- The time, which stands still. -/
  timeStamp : Text := "2000/01/01 00:00:00.000"
  deriving Repr

namespace Workspace

def change (path : Text) (f : Text → Text) : StateM Workspace (Except Fault Unit) := do
  let w ← get
  match w.files.update w.workingDirectory path f with
  | .ok files =>
    set { w with files }
    return .ok ()
  | .error fault => return .error fault

instance : Host (StateM Workspace) where
  stat path := do
    let w ← get
    return (w.files.stat w.workingDirectory path).mapError (⟨.stat, path, ·⟩)
  load path := do
    let w ← get
    return w.files.read w.workingDirectory path
  store path data := change path fun _ => data
  append path data := change path (· ++ data)
  list path := do
    let w ← get
    return (w.files.list w.workingDirectory path).map
      (·.map fun (name, e) => ⟨name, e == .directory⟩)
  workingDirectory := return Path.ofParts (← get).workingDirectory
  report text := modify fun w => { w with errors := w.errors ++ text }
  timeStamp := return (← get).timeStamp

end Workspace

end Jack
