import Jack.Command.Log
import Jack.Compile.Unit
import Jack.Settings
import Jack.Token.Dump

/-! Building: from inputs to the files that are compiled, and what becomes of each. -/

namespace Jack.Command

inductive FileError where
  | notJack
  | unopened (path : Text) (fault : Fault)
  | unreadable (e : Unreadable)
  | rejected (e : CompileError)
  | illegal (t : Token)
  | codeUnwritten (path : Text) (fault : Fault)
  | traceUnwritten (path : Text) (fault : Fault)
  | dumpUnopened (path : Text) (fault : Fault)

def FileError.message : FileError → Text
  | .notJack => "not a .jack file"
  | .unopened path fault => "could not open file " ++ path.quoted ++ " for reading: " ++ fault.message
  | .unreadable e => e.message
  | .rejected e => e.message
  | .illegal t => TokenDump.fault t
  | .codeUnwritten path fault => "could not write output file " ++ path.quoted ++ ": " ++ fault.message
  | .traceUnwritten path fault => "could not write trace file " ++ path.quoted ++ ": " ++ fault.message
  | .dumpUnopened path fault =>
    "could not open output file " ++ path.quoted ++ " for writing: " ++ fault.message

structure Failure where
  path : Text
  error : FileError

def Failure.message (f : Failure) : Text := f.path ++ ": " ++ f.error.message

def sourceExtension : Text := ".jack"

inductive CollectError where
  | unknown (path : Text) (fault : Fault)
  | unlisted (path : Text) (fault : Fault)

def CollectError.message : CollectError → Text
  | .unknown path fault => "cannot stat file/dir " ++ path.quoted ++ ": " ++ fault.message
  | .unlisted path fault => "could not open directory " ++ path.quoted ++ ": " ++ fault.message

variable {m : Type → Type} [Monad m] [Host m]

/-- The files that one input stands for: a directory for the sources in it, anything else for itself. -/
def expand (input : Text) : m (Except CollectError (List Text)) := do
  match ← Host.stat input with
  | .error fault => return .error (.unknown input fault)
  | .ok .file => return .ok [input]
  | .ok .directory =>
    match ← Host.list input with
    | .error fault => return .error (.unlisted input fault)
    | .ok listed =>
      let sources := listed.filter fun e => !e.isDirectory && Path.extension e.name == sourceExtension
      return .ok (sources.map fun e => Path.join [input, e.name])

def collect : List Text → m (Except CollectError (List Text))
  | [] => return .ok []
  | input :: rest => do
    match ← expand input with
    | .error e => return .error e
    | .ok files =>
      match ← collect rest with
      | .error e => return .error e
      | .ok others => return .ok (files ++ others)

def openSource (path : Text) : m (Except FileError Lexer) := do
  match ← Host.load path with
  | .ok data => return (Lexer.ofRead (.ok data)).mapError .unreadable
  | .error fault =>
    match fault.operation with
    | .read => return (Lexer.ofRead (.error fault.message)).mapError .unreadable
    | _ => return .error (.unopened path fault)

def save (settings : Settings) (path : Text) (compiled : Compiled) : m (Except FileError Text) := do
  let codePath := Path.withExtension path settings.extension
  match ← Host.store codePath compiled.code with
  | .error fault => return .error (.codeUnwritten codePath fault)
  | .ok _ =>
    if !settings.trace then return .ok codePath
    let tracePath := Path.withExtension path settings.traceExtension
    match ← Host.store tracePath compiled.xml with
    | .error fault => return .error (.traceUnwritten tracePath fault)
    | .ok _ => return .ok codePath

/-- Compiles a file, writes its code and, if set, its trace, and gives the path of the code. -/
def compileFile (log : Log) (settings : Settings) (path : Text) : m (Except FileError Text) := do
  match ← openSource path with
  | .error e => return .error e
  | .ok lexer =>
    let done := compile lexer.toSource
    done.notes.forM fun note => log.write (.ofNote note)
    match done.outcome with
    | .error e => return .error (.rejected e)
    | .ok compiled =>
      let expected := Path.className path
      if compiled.className ≠ expected then
        log.write (.own .warning ("class " ++ compiled.className.quoted ++ " is declared in " ++
          path.quoted ++ ", expected class " ++ expected.quoted))
      save settings path compiled

/-- Writes the token dump of a file and gives its path. A dump that is broken off stays. -/
def dumpFile (path : Text) : m (Except FileError Text) := do
  match ← openSource path with
  | .error e => return .error e
  | .ok lexer =>
    let dump := TokenDump.ofTokens lexer.tokens.1
    let dumpPath := Path.withExtension path "T.xml"
    match ← Host.store dumpPath dump.written with
    | .error fault => return .error (.dumpUnopened dumpPath fault)
    | .ok _ =>
      match dump.illegal? with
      | some t => return .error (.illegal t)
      | none => return .ok dumpPath

def job (log : Log) (settings : Settings) (tokens : Bool) (path : Text) : m (Option Failure) := do
  if Path.extension path ≠ sourceExtension then
    log.write (.own .warning ("not a .jack file: " ++ path.quoted))
    return some ⟨path, .notJack⟩
  log.write (.own .info ("compiling file " ++ path.quoted))
  match ← if tokens then dumpFile path else compileFile log settings path with
  | .error e =>
    log.write (.own .error ("failed to compile " ++ path.quoted ++ ": " ++ e.message))
    return some ⟨path, e⟩
  | .ok output =>
    log.write (.own .info ("saved as " ++ output.quoted))
    return none

/-- Does what is to be done with each file and gives the failures, sorted by path. No file is skipped
because another one failed. -/
def build (log : Log) (settings : Settings) (tokens : Bool) (paths : List Text) : m (List Failure) := do
  let failures ← paths.filterMapM (job log settings tokens)
  return failures.mergeSort fun a b => Text.le a.path b.path

end Jack.Command
