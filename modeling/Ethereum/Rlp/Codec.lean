import Ethereum.Rlp.Head

/-!
# Formats

A `Codec` is a format for the values of a type: how a value is written, how long its encoding is
said to be before anything is written, and how a value is read off the front of a byte string,
together with what is left of it.

Larger formats are put together from smaller ones: `seq` writes two values after each other,
`imap` renames the values, `record` makes a list item of a fixed sequence, and `list` one of any
number of values of one format.
-/

namespace Ethereum.Rlp

/-- A format for the values of a type. -/
structure Codec (α : Type) where
  /-- The bytes of a value. -/
  encode : α → Bytes
  /-- The length that a value's encoding is announced to have. -/
  length : α → Nat
  /-- Reads a value off the front of a byte string, and returns what follows it. -/
  decode : Bytes → Except Error (α × Bytes)

namespace Codec

variable {α β : Type}

/-- Two values, one after the other. -/
def seq (c : Codec α) (d : Codec β) : Codec (α × β) where
  encode v := c.encode v.1 ++ d.encode v.2
  length v := c.length v.1 + d.length v.2
  decode bs := do
    let (a, rest) ← c.decode bs
    let (b, rest) ← d.decode rest
    .ok ((a, b), rest)

/-- The same encodings for values that stand in a bijection with those of another format. -/
def imap (c : Codec α) (there : α → β) (back : β → α) : Codec β where
  encode v := c.encode (back v)
  length v := c.length (back v)
  decode bs := do
    let (a, rest) ← c.decode bs
    .ok (there a, rest)

/-- A list item with a fixed sequence of fields. The fields are read from all that follows the
head, and must then have used up exactly the announced payload. -/
def record (fields : Codec α) : Codec α where
  encode v := (Head.mk .list (fields.length v)).encode ++ fields.encode v
  length v := Head.size (fields.length v) + fields.length v
  decode bs := do
    let (head, body) ← Head.decode bs
    if head.kind ≠ .list then .error .unexpectedString
    else
      let (v, rest) ← fields.decode body
      let used := body.length - rest.length
      if used = head.payload then .ok (v, rest)
      else .error (.listLengthMismatch head.payload used)

/-- Reads values until nothing is left. The fuel bounds how many there can be; the length of the
input is enough, since every value takes at least one byte. -/
def decodeAll (c : Codec α) : (fuel : Nat) → Bytes → (read : List α) → Except Error (List α)
  | _, [], read => .ok read.reverse
  | 0, _ :: _, _ => .error .inputTooShort
  | fuel + 1, b :: bs, read =>
    match c.decode (b :: bs) with
    | .ok (v, rest) => decodeAll c fuel rest (v :: read)
    | .error e => .error e

/-- The total announced length of the items of a list. -/
def payloadLength (c : Codec α) (items : List α) : Nat :=
  items.foldr (fun item total => c.length item + total) 0

/-- A list item of any number of values. Its payload is split off before the values are read. -/
def list (c : Codec α) : Codec (List α) where
  encode items := (Head.mk .list (c.payloadLength items)).encode ++ items.flatMap c.encode
  length items := Head.size (c.payloadLength items) + c.payloadLength items
  decode bs := do
    let (payload, rest) ← takePayload .list bs
    let items ← c.decodeAll payload.length payload []
    .ok (items, rest)

end Codec

end Ethereum.Rlp
