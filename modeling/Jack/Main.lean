import Jack.Command.Run
import Std.Time

/-! The command line program: the system as a host, and the command run on it. -/

namespace Jack.LocalHost

def reason : IO.Error → Fault.Reason
  | .noFileOrDirectory .. => .noEntry
  | .inappropriateType _ 20 _ => .notDirectory
  | .inappropriateType _ 21 _ => .isDirectory
  | .permissionDenied _ _ details => .other details
  | .invalidArgument _ _ details => .other details
  | .resourceExhausted _ _ details => .other details
  | .otherError _ details => .other details
  | e => .other e.toString

/-- A path as the system takes it. Bytes that are not UTF-8 lead nowhere. -/
def pathString (path : Text) : String :=
  (String.fromUTF8? ⟨path.toArray⟩).getD ""

def guarded {α : Type} (operation : Fault.Operation) (path : Text) (action : IO α) :
    IO (Except Fault α) := do
  match ← action.toBaseIO with
  | .ok a => return .ok a
  | .error e => return .error ⟨operation, path, reason e⟩

def writeIn (mode : IO.FS.Mode) (path data : Text) : IO (Except Fault Unit) := do
  match ← guarded .open path (IO.FS.Handle.mk (pathString path) mode) with
  | .error fault => return .error fault
  | .ok handle => guarded .write path (handle.write ⟨data.toArray⟩)

/-- All bytes of a file. Opening it and reading it fail apart. -/
def readAll (path : Text) : IO (Except Fault Text) := do
  match ← guarded .open path (IO.FS.Handle.mk (pathString path) .read) with
  | .error fault => return .error fault
  | .ok handle => guarded .read path (return (← handle.readBinToEnd).data.toList)

def listSorted (path : Text) : IO (Except Fault (List Listed)) :=
  guarded .open path do
    let found ← (System.mkFilePath [pathString path]).readDir
    let listed ← found.toList.mapM fun e => do
      let metadata ← e.path.symlinkMetadata
      return (⟨e.fileName, metadata.type == .dir⟩ : Listed)
    return listed.mergeSort fun a b => Text.le a.name b.name

instance : Host IO where
  stat path := guarded .stat path do
    let metadata ← (System.mkFilePath [pathString path]).metadata
    return if metadata.type == .dir then .directory else .file
  load := readAll
  store := writeIn .write
  append := writeIn .append
  list := listSorted
  workingDirectory := return (← IO.currentDir).toString
  report text := do (← IO.getStderr).write ⟨text.toArray⟩
  timeStamp := return (← Std.Time.PlainDateTime.now).format "uuuu/MM/dd HH:mm:ss.SSS"

end Jack.LocalHost

def main (arguments : List String) : IO UInt32 := do
  let status ← (Jack.Command.run (arguments.map Jack.Text.ofString) : IO Nat)
  return status.toUInt32
