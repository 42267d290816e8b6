import Ethereum.Text.Quoted
import Ethereum.Tool.Event

/-!
# Events as lines

An event is written on one line of the error output: as a JSON object for programs, or as its
message and its details for people.
-/

namespace Ethereum.Tool

/-- A character inside a JSON string. Quotes, backslashes and control characters are escaped. -/
def escapeJson (c : Char) : String :=
  if c = '"' then "\\\""
  else if c = '\\' then "\\\\"
  else if c.toNat < 0x20 then
    "\\u00" ++ String.ofList [Text.hexDigit (c.toNat / 16), Text.hexDigit (c.toNat % 16)]
  else String.singleton c

/-- A text as a JSON string. -/
def quoteJson (text : String) : String := "\"" ++ String.join (text.toList.map escapeJson) ++ "\""

namespace FieldValue

/-- The value of a field as JSON. -/
def toJson : FieldValue → String
  | .text value => quoteJson value
  | .number value => toString value.toNat

/-- The value of a field for people. -/
def plain : FieldValue → String
  | .text value => value
  | .number value => toString value.toNat

end FieldValue

namespace Event

/-- An event as a JSON object. -/
def toJson (event : Event) : String :=
  let fields := event.fields.map fun (key, value) => quoteJson key ++ ":" ++ value.toJson
  "\x7b\"level\":" ++ quoteJson event.level ++ ",\"fields\":\x7b" ++ ",".intercalate fields ++
    "\x7d,\"target\":" ++ quoteJson target ++ "\x7d"

/-- An event for people. -/
def plain (event : Event) : String :=
  let details := event.details.map fun (key, value) => " " ++ key ++ "=" ++ value.plain
  event.level ++ " " ++ target ++ ": " ++ event.message ++ String.join details

end Event

end Ethereum.Tool
