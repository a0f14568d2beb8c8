import Jack.Compile.Pass
import Jack.Files.Host

/-! The log of a run. -/

namespace Jack.Command

inductive Level where
  | error
  | warning
  | info
  | debug
  deriving DecidableEq, Repr

def Level.tag : Level → Text
  | .error => " ERROR"
  | .warning => "  WARN"
  | .info => "  INFO"
  | .debug => " DEBUG"

/-- The least verbosity at which messages of a level are shown. -/
def Level.verbosity : Level → Int
  | .error => -2
  | .warning => -1
  | .info => 1
  | .debug => 2

structure Log where
  verbosity : Int
  /-- The standard error stream if empty. -/
  file : Text
  deriving DecidableEq, Repr

/-- A message, and the part of the program that speaks. -/
structure Message where
  level : Level
  speaker : Text
  text : Text
  deriving DecidableEq, Repr

namespace Message

def own (level : Level) (text : Text) : Message := ⟨level, "jackc", text⟩

def ofNote : Note → Message
  | .compiling className => ⟨.debug, "jackc.compiler", "compiling class " ++ className⟩
  | .registered v =>
    ⟨.debug, "jackc.symbols",
      "registered " ++ v.storage.name ++ " " ++ v.type ++ " " ++ v.name ++ " at index " ++
        Text.ofNat v.index⟩
  | .wroteFunction name locals =>
    ⟨.debug, "jackc.compiler", "function " ++ name ++ " with " ++ Text.ofNat locals ++ " locals"⟩
  | .aborted className error =>
    ⟨.debug, "jackc.compiler",
      "compilation of class " ++ className.quoted ++ " aborted: " ++ error.message⟩

end Message

namespace Log

variable {m : Type → Type} [Monad m] [Host m]

def put (log : Log) (text : Text) : m Unit :=
  if log.file.isEmpty then Host.report text else discard (Host.append log.file text)

/-- Makes sure that there is a log file, unless the log is switched off altogether. -/
def start (log : Log) : m (Except Fault Unit) :=
  if log.file.isEmpty || log.verbosity ≤ -4 then return .ok () else Host.append log.file []

def write (log : Log) (message : Message) : m Unit := do
  if message.level.verbosity ≤ log.verbosity then
    let stamp ← Host.timeStamp
    log.put (stamp ++ message.level.tag ++ " [" ++ message.speaker ++ "] " ++ message.text ++
      [Byte.newline])

end Log

end Jack.Command
