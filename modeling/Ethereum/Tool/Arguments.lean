import Ethereum.Text.Numeral

/-!
# Arguments of the command line

Options and commands as words. An option is given by its name behind two hyphens, or by its letter
behind one; its value follows as the next word, or in the same word behind an equals sign, or
directly behind the letter. A word that starts with a hyphen is an option, unless it is the hyphen
alone. Each level of the command line takes an option once.

The options that every command takes may stand before or behind the name of the command; behind it
they count. `parse` gives `none` for every list of words that is no invocation.
-/

namespace Ethereum.Tool

/-- What an option takes. -/
inductive OptionValue where
  /-- Nothing: the option is on when it is given. -/
  | nothing
  /-- Any text. -/
  | text
  /-- The path of a file, which is not empty. -/
  | path
  deriving DecidableEq, Repr

/-- An option that a level of the command line knows. -/
structure OptionSpec where
  name : String
  letter : Option Char := none
  value : OptionValue := .text
  deriving Repr

/-- The options that were given, each with its value. -/
abbrev Given := List (String × String)

/-- The value that an option was given. -/
def Given.value? (given : Given) (name : String) : Option String := given.lookup name

/-! ## Words -/

/-- What a word is for a level of the command line. -/
inductive Word where
  /-- Neither an option nor the value of one. -/
  | plain
  /-- An option with its value, or one that takes none. -/
  | complete (spec : OptionSpec) (value : String)
  /-- An option whose value is the next word. -/
  | pending (spec : OptionSpec)
  /-- An option that the level does not know, or a value that the option does not take. -/
  | unknown

/-- What a name behind two hyphens is. -/
def classifyLong (specs : List OptionSpec) (text : List Char) : Word :=
  let name := String.ofList (text.takeWhile (· ≠ '='))
  match specs.find? (·.name == name), text.dropWhile (· ≠ '=') with
  | none, _ => .unknown
  | some spec, [] => if spec.value = .nothing then .complete spec "" else .pending spec
  | some spec, _ :: value =>
    if spec.value = .nothing then .unknown else .complete spec (String.ofList value)

/-- What a letter behind one hyphen is, and what follows it. -/
def classifyShort (specs : List OptionSpec) (letter : Char) (text : List Char) : Word :=
  match specs.find? (·.letter == some letter), text with
  | none, _ => .unknown
  | some spec, [] => .pending spec
  | some spec, '=' :: value => .complete spec (String.ofList value)
  | some spec, value => .complete spec (String.ofList value)

/-- What a word is. Two hyphens alone end the options. -/
def classify (specs : List OptionSpec) (word : String) : Word :=
  match word.toList with
  | ['-'] => .plain
  | ['-', '-'] => .plain
  | '-' :: '-' :: text => classifyLong specs text
  | '-' :: letter :: text => classifyShort specs letter text
  | _ => .plain

/-- Whether a word can be the value of the option before it. -/
def canBeValue (word : String) : Bool := word == "-" || word.toList.head? != some '-'

/-- Takes down an option, which must not have been given before. -/
def add (given : Given) (spec : OptionSpec) (value : String) : Option Given :=
  if (given.value? spec.name).isSome || (spec.value = .path && value.isEmpty) then none
  else some ((spec.name, value) :: given)

/-- Reads options up to the first word that is none, and returns the words from there on. -/
def takeOptions (specs : List OptionSpec) : List String → Given → Option (Given × List String)
  | [], given => some (given, [])
  | word :: rest, given =>
    match classify specs word with
    | .plain => some (given, word :: rest)
    | .unknown => none
    | .complete spec value =>
      match add given spec value with
      | some given => takeOptions specs rest given
      | none => none
    | .pending spec =>
      match rest with
      | [] => none
      | value :: rest =>
        if canBeValue value then
          match add given spec value with
          | some given => takeOptions specs rest given
          | none => none
        else none

/-! ## Invocations -/

/-- Where a command takes its input from. -/
inductive InputSource where
  /-- The text itself. -/
  | hex (text : String)
  /-- The content of a file. -/
  | file (path : String)
  deriving DecidableEq, Repr

/-- Which form of a block is written. -/
inductive Encoding where
  | network
  | storage
  deriving DecidableEq, Repr

/-- What the command that builds a block is given. Texts are not looked into yet. -/
structure BuildArguments where
  parent : String
  coinbase : String
  stateRoot : String
  difficulty : Option UInt64 := none
  nonce : UInt64 := 0
  extra : String := ""
  number : UInt64 := 0
  gasLimit : Option UInt64 := none
  time : Option UInt64 := none
  totalDifficulty : Option UInt64 := none
  encoding : Encoding := .network
  deriving DecidableEq

/-- What the tool is asked to do. -/
inductive Command where
  | decode (input : InputSource)
  | headerHash (input : InputSource)
  | build (arguments : BuildArguments)
  | version
  deriving DecidableEq

/-- A command and the options that every command takes. -/
structure Invocation where
  /-- The file that the protocol parameters are in. -/
  config : Option String
  /-- Whether log events are written as JSON. -/
  jsonLogs : Bool
  command : Command
  deriving DecidableEq

/-- The options that every command takes. -/
def commonOptions : List OptionSpec :=
  [{ name := "config", letter := some 'c', value := .path },
    { name := "json-logs", value := .nothing }]

/-- The options of a command that reads a text. -/
def inputOptions : List OptionSpec :=
  [{ name := "hex" }, { name := "file", letter := some 'f', value := .path }]

/-- The options of the command that builds a block. -/
def buildOptions : List OptionSpec :=
  [{ name := "parent" }, { name := "coinbase" }, { name := "state-root" }, { name := "difficulty" },
    { name := "nonce" }, { name := "extra" }, { name := "number" }, { name := "gas-limit" },
    { name := "time" }, { name := "td" }, { name := "encoding" }]

/-- The source of a command's input, of which there must be exactly one. -/
def inputOf (given : Given) : Option InputSource :=
  match given.value? "hex", given.value? "file" with
  | some text, none => some (.hex text)
  | none, some path => some (.file path)
  | _, _ => none

/-- An integer that may be left out. -/
def integerOf (given : Given) (name : String) : Option (Option UInt64) :=
  match given.value? name with
  | none => some none
  | some text => (Text.decimal64 text.toList).map some

/-- The form of a block that is asked for. -/
def encodingOf (given : Given) : Option Encoding :=
  match given.value? "encoding" with
  | none => some .network
  | some text =>
    if text = "network" then some .network
    else if text = "storage" then some .storage
    else none

/-- The arguments of the command that builds a block. -/
def buildOf (given : Given) : Option BuildArguments := do
  let parent ← given.value? "parent"
  let coinbase ← given.value? "coinbase"
  let stateRoot ← given.value? "state-root"
  let difficulty ← integerOf given "difficulty"
  let nonce ← integerOf given "nonce"
  let number ← integerOf given "number"
  let gasLimit ← integerOf given "gas-limit"
  let time ← integerOf given "time"
  let totalDifficulty ← integerOf given "td"
  let encoding ← encodingOf given
  some {
    parent, coinbase, stateRoot, difficulty, gasLimit, time, totalDifficulty, encoding
    nonce := nonce.getD 0
    number := number.getD 0
    extra := (given.value? "extra").getD "" }

/-- The options of a command by its name, and the command that given options make. -/
def commandOf : String → Option (List OptionSpec × (Given → Option Command))
  | "decode" => some (inputOptions, fun given => (inputOf given).map .decode)
  | "header-hash" => some (inputOptions, fun given => (inputOf given).map .headerHash)
  | "build" => some (buildOptions, fun given => (buildOf given).map .build)
  | "version" => some ([], fun _ => some .version)
  | _ => none

/-- The invocation that words make. `fallback` is the file of protocol parameters that is used when
none is given; a level at which none is given looks at it, so it must then not be empty. -/
def parse (fallback : Option String) (words : List String) : Option Invocation := do
  let (outer, rest) ← takeOptions commonOptions words []
  let name ← rest.head?
  let (options, command) ← commandOf name
  let (inner, rest) ← takeOptions (options ++ commonOptions) rest.tail []
  guard (rest = [] ∨ rest = ["--"])
  let command ← command inner
  let outerConfig := outer.value? "config"
  let innerConfig := inner.value? "config"
  guard (fallback ≠ some "" ∨ (outerConfig.isSome ∧ innerConfig.isSome))
  some {
    command
    config := innerConfig <|> outerConfig <|> fallback
    jsonLogs := (inner.value? "json-logs").isSome || (outer.value? "json-logs").isSome }

end Ethereum.Tool
