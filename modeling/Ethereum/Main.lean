import Ethereum.Keccak
import Ethereum.Tool.LogLine
import Ethereum.Tool.Run
import Std.Time.Format

/-!
# The program

Reads the environment and the files that an invocation can look at, runs it, and writes what it
logs to the error output and its result to the output. Every event is written, as the default filter
lets all of them through; a filter in the variable `RUST_LOG` is not looked at.
-/

namespace Ethereum.Tool

/-- The number of a system error, which is given as it is or negated. -/
def errorNumber (code : UInt32) : UInt32 := if code < 0x80000000 then code else 0 - code

/-- Why a file cannot be read when the system gives this error. -/
def ReadFault.ofSystem (fault : IO.Error) : ReadFault :=
  match fault with
  | .noFileOrDirectory .. => .missing
  | .inappropriateType _ code _ => if errorNumber code = 20 then .notDirectory else .directory
  | .invalidArgument _ code _ =>
    if errorNumber code = 36 then .nameTooLong else .refused (toString fault)
  | _ => .refused (toString fault)

/-- Reads a file, or says why it cannot be read. -/
def readFile (path : String) : IO (Except ReadFault Bytes) := do
  try
    let content ← IO.FS.readBinFile path
    return .ok content.toList
  catch fault => return .error (.ofSystem fault)

/-- Seconds since the start of 1970. -/
def currentTime : IO UInt64 := do
  let now ← Std.Time.Timestamp.now
  return UInt64.ofNat now.toSecondsSinceUnixEpoch.val.toNat

end Ethereum.Tool

open Ethereum.Tool in
/-- Runs the tool on the words of its command line. -/
def main (words : List String) : IO UInt32 := do
  let config ← IO.getEnv "FRONTIER_CONFIG"
  match parse config words with
  | none =>
    IO.eprintln "usage: frontier-tool [OPTIONS] <decode|header-hash|build|version>"
    return 2
  | some invocation =>
    let files ← invocation.paths.mapM fun path => return (path, ← readFile path)
    let (events, result) := invocation.run { files, config, now := ← currentTime }
    for event in events do
      IO.eprintln (if invocation.jsonLogs then event.toJson else event.plain)
    match result with
    | .ok text => IO.print text; return 0
    | .error fault => IO.eprintln fault.report; return 1
