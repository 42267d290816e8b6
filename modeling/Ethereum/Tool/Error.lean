import Ethereum.Error
import Ethereum.Text.Hex

/-!
# Faults of the tool

Why a command fails, from the cause outwards. A report names the outermost fault and then its
causes, which are numbered when there are several.
-/

namespace Ethereum.Tool

/-- Why a file cannot be read. -/
inductive ReadFault where
  /-- There is no such file. -/
  | missing
  /-- The path is that of a directory. -/
  | directory
  /-- The path goes on behind something that is no directory. -/
  | notDirectory
  /-- The path, or a name in it, is too long. -/
  | nameTooLong
  /-- The file is not text. -/
  | notText
  /-- The system refused, in its own words. -/
  | refused (reason : String)
  deriving DecidableEq, Repr

/-- The fault in words. -/
def ReadFault.message : ReadFault → String
  | .missing => "No such file or directory (os error 2)"
  | .directory => "Is a directory (os error 21)"
  | .notDirectory => "Not a directory (os error 20)"
  | .nameTooLong => "File name too long (os error 36)"
  | .notText => "stream did not contain valid UTF-8"
  | .refused reason => reason

/-- Why a command fails. -/
inductive Fault where
  | configUnreadable (path : String) (cause : ReadFault)
  | configInvalid (path : String) (cause : BlockError)
  | inputUnreadable (path : String) (cause : ReadFault)
  | inputNotHex (cause : Hex.Error)
  | blockUndecodable (cause : BlockError)
  | headerUndecodable (cause : BlockError)
  | parentInvalid (cause : Hex.Error)
  | coinbaseInvalid (cause : Hex.Error)
  | stateRootInvalid (cause : Hex.Error)
  | extraNotHex (cause : Hex.Error)
  | extraTooLong (cause : BlockError)
  | gasLimitBelowMinimum (limit minimum : UInt64)
  deriving DecidableEq

/-- What is wrong with a block, and the cause of that. -/
def blockMessages (fault : BlockError) : List String :=
  match fault with
  | .malformedEncoding cause => [fault.message, cause.message]
  | _ => [fault.message]

/-- What is wrong with a text that should be hexadecimal, and why. -/
def hexMessages (cause : Hex.Error) : List String := ["input is not valid hex", cause.inputMessage]

namespace Fault

/-- The fault and its causes in words, outermost first. -/
def messages : Fault → List String
  | .configUnreadable path cause => ["failed to read config file: " ++ path, cause.message]
  | .configInvalid path cause => ("invalid config file: " ++ path) :: blockMessages cause
  | .inputUnreadable path cause => ["failed to read input file: " ++ path, cause.message]
  | .inputNotHex cause => hexMessages cause
  | .blockUndecodable cause => "failed to decode block" :: blockMessages cause
  | .headerUndecodable cause => "failed to decode header" :: blockMessages cause
  | .parentInvalid cause => ["invalid --parent hash", cause.message]
  | .coinbaseInvalid cause => ["invalid --coinbase address", cause.message]
  | .stateRootInvalid cause => ["invalid --state-root hash", cause.message]
  | .extraNotHex cause => "invalid --extra" :: hexMessages cause
  | .extraTooLong cause => blockMessages cause
  | .gasLimitBelowMinimum limit minimum => [s!"gas limit {limit} below minimum {minimum}"]

/-- Causes as lines, indented, and numbered when there are several. -/
def renderCauses : List String → String
  | [] => ""
  | [cause] => "\n\nCaused by:\n    " ++ cause
  | causes =>
    "\n\nCaused by:\n" ++
      "\n".intercalate (causes.zipIdx.map fun (cause, i) => s!"    {i}: {cause}")

/-- The report of a fault. -/
def report (fault : Fault) : String :=
  match fault.messages with
  | [] => "Error: "
  | outermost :: causes => "Error: " ++ outermost ++ renderCauses causes

end Fault

end Ethereum.Tool
