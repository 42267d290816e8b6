import Ethereum.Json.Records
import Ethereum.Tool.Build
import Ethereum.Tool.Event
import Ethereum.Tool.FileTree
import Ethereum.Tool.Summary

/-!
# Runs of the tool

A run is a function of the arguments and of what the tool finds around it. It gives what is logged
on the way and, at its end, a text for the output or a fault. The parameters are loaded before the
command is carried out, and not at all to show the version. The files can be those of the system or
those of a tree.
-/

namespace Ethereum.Tool

/-- What the tool finds around it. -/
structure Environment where
  /-- The files that can be read, and why others cannot. -/
  files : List (String × Except ReadFault Bytes) := []
  /-- The file of protocol parameters when none is given. -/
  config : Option String := none
  /-- Seconds since the start of 1970. -/
  now : UInt64 := 0

/-- The text of a file. -/
def Environment.readText (env : Environment) (path : String) : Except ReadFault String :=
  match env.files.lookup path with
  | none => .error .missing
  | some (.error fault) => .error fault
  | some (.ok bs) =>
    match Text.ofUtf8? bs with
    | some text => .ok text
    | none => .error .notText

/-- What is logged on the way to a result. -/
abbrev Logged (α : Type) := List Event × Except Fault α

/-- The bytes that a command takes in. -/
def readInput (env : Environment) : InputSource → Except Fault Bytes
  | .hex text => orFault (Hex.decodeInput text.toList) .inputNotHex
  | .file path => do
    let text ← orFault (env.readText path) (.inputUnreadable path)
    orFault (Hex.decodeInput text.toList) .inputNotHex

/-- The protocol parameters of a file, or those of the main network without one. -/
def loadParams (env : Environment) : Option String → Except Fault ProtocolParams
  | none => .ok {}
  | some path => do
    let text ← orFault (env.readText path) (.configUnreadable path)
    orFault (ProtocolParams.ofJson text) (.configInvalid path)

/-- The name and the version of the tool and of what built it. -/
def versionText : String := "frontier-tool 0.1.0\nrustc         unknown\n"

section
variable [HashFunction]

/-- Decodes a block and sums it up. That its header does not fit its body is logged. -/
def runDecode (env : Environment) (input : InputSource) : Logged String :=
  let decoded := do
    let bs ← readInput env input
    orFault (Block.decode bs) .blockUndecodable
  match decoded with
  | .error fault => ([], .error fault)
  | .ok block =>
    let events := match block.verifyBody with
      | .ok _ => []
      | .error fault => [.rootsDiffer fault]
    (events, .ok (renderSummary (summarizeBlock block)))

/-- Decodes a header and gives its two digests. -/
def runHeaderHash (env : Environment) (input : InputSource) : Logged String :=
  ([], do
    let bs ← readInput env input
    let header ← orFault (Header.codec.decodeExact bs) .headerUndecodable
    .ok (renderSummary (summarizeHeader header)))

/-- Assembles a block and writes it in hexadecimal. -/
def runBuild (env : Environment) (params : ProtocolParams) (arguments : BuildArguments) :
    Logged String :=
  match assemble arguments params env.now with
  | .error fault => ([], .error fault)
  | .ok block =>
    ([.blockAssembled block.hash arguments.number arguments.encoding],
      .ok (Hex.encode (arguments.encoding.bytes block) ++ "\n"))

/-- Carries out a command. -/
def runCommand (env : Environment) (params : ProtocolParams) : Command → Logged String
  | .decode input => runDecode env input
  | .headerHash input => runHeaderHash env input
  | .build arguments => runBuild env params arguments
  | .version => ([], .ok versionText)

/-- Loads the parameters and carries out the command. -/
def Invocation.run (env : Environment) (invocation : Invocation) : Logged String :=
  match invocation.command with
  | .version => ([], .ok versionText)
  | command =>
    match loadParams env invocation.config with
    | .error fault => ([], .error fault)
    | .ok params =>
      let loaded := invocation.config.toList.map fun path => .paramsLoaded path params
      let (events, result) := runCommand env params command
      (loaded ++ events, result)

end

/-- The files that a run can look at. -/
def Invocation.paths (invocation : Invocation) : List String :=
  invocation.config.toList ++
    match invocation.command with
    | .decode (.file path) => [path]
    | .headerHash (.file path) => [path]
    | _ => []

/-- Carries out a command where the files are those of a tree. -/
def Invocation.runIn [HashFunction] (tree : FileTree) (now : UInt64) (invocation : Invocation) :
    Logged String :=
  invocation.run { files := invocation.paths.map fun path => (path, tree.read path), now }

end Ethereum.Tool
