import Ethereum.Json.Scalar

/-!
# Passing over values

A value that no reader wants is passed over: it may be any JSON value, its parts nested to any
depth, its numbers of any size and its strings texts or not.
-/

namespace Ethereum.Json

open Reader

/-- What a part of a value stands in. -/
inductive Container where
  | array
  | object
  deriving DecidableEq, Repr

/-- What must come next while a value is passed over. -/
inductive Awaited where
  /-- A value. -/
  | value
  /-- The first value of an array, or its end. -/
  | firstValue
  /-- A key, and the value under it. -/
  | key
  /-- The first key of an object, or its end. -/
  | firstKey
  /-- A comma, or the end of the innermost container. -/
  | separator
  deriving DecidableEq, Repr

/-- Passes over a scalar. -/
def skipScalar : Reader Unit := do
  if ← take? '"' then skipString
  else if (← readScalar) = .number .huge then
    let _ ← takeWhile Number.isDigit

/-- Passes over the start of a value: all of a scalar, or an opening bracket. Gives the containers
that are then open, innermost first, and what must come next. -/
def openValue (inside : List Container) : Reader (List Container × Awaited) := do
  if ← take? '[' then return (.array :: inside, .firstValue)
  else if ← take? '\x7b' then return (.object :: inside, .firstKey)
  else
    skipScalar
    return (inside, .separator)

/-- Passes over a key and the colon behind it. -/
def skipKey : Reader Unit := do
  take '"'
  skipString
  take ':'

/-- Passes over a part of a value. -/
def skipPart (inside : List Container) : Awaited → Reader (List Container × Awaited)
  | .value => openValue inside
  | .firstValue => do
    if ← take? ']' then return (inside.tail, .separator) else openValue inside
  | .key => do
    skipKey
    return (inside, .value)
  | .firstKey => do
    if ← take? '\x7d' then return (inside.tail, .separator)
    skipKey
    return (inside, .value)
  | .separator =>
    match inside with
    | [] => failure
    | .array :: outer => do
      if ← take? ',' then return (inside, .value)
      take ']'
      return (outer, .separator)
    | .object :: outer => do
      if ← take? ',' then return (inside, .key)
      take '\x7d'
      return (outer, .separator)

/-- Passes over the rest of a value that is open in the given containers, innermost first. The fuel
bounds its parts. -/
def skipParts : (fuel : Nat) → List Container → Awaited → Reader Unit
  | _, [], .separator => return
  | 0, _, _ => failure
  | fuel + 1, inside, awaited => do
    let (inside, awaited) ← skipPart inside awaited
    skipParts fuel inside awaited

/-- Passes over a value. It has no more parts than bytes. -/
def skipValue : Reader Unit := do
  skipParts (← get).length [] .value

end Ethereum.Json
