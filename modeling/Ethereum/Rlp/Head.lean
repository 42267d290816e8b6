import Ethereum.Bytes.Basic
import Ethereum.Rlp.Error

/-!
# Item heads

Every item of the recursive length encoding is a string or a list, and starts with a head that
says which and how long its payload is. A payload of fewer than 56 bytes is announced by the first
byte alone; a longer one by a first byte that counts the bytes of the length, and the length. A
string of one byte below `0x80` is its own head.

`Head.encode` writes a head, `Head.size` counts the bytes it takes, and `Head.decode` reads the
one canonical spelling of each. `takePayload` also splits the payload off.
-/

namespace Ethereum.Rlp

/-- The two kinds of item. -/
inductive ItemKind where
  | string
  | list
  deriving DecidableEq, Repr

/-- The first byte of an empty item of this kind. -/
def ItemKind.base : ItemKind → Nat
  | .string => 0x80
  | .list => 0xc0

/-- What the head of an item announces. -/
structure Head where
  kind : ItemKind
  /-- How many bytes the payload has. -/
  payload : Nat
  deriving DecidableEq, Repr

namespace Head

/-- The bytes of a head. -/
def encode (head : Head) : Bytes :=
  if head.payload < 56 then [UInt8.ofNat (head.kind.base + head.payload)]
  else
    let length := Bytes.ofNat head.payload
    UInt8.ofNat (head.kind.base + 55 + length.length) :: length

/-- How many bytes the head of a payload of this length takes. -/
def size (payload : Nat) : Nat :=
  if payload < 56 then 1 else 1 + Bytes.byteCount payload

/-- Checks that the payload that a head announces is there. -/
def checkPayload (head : Head) (body : Bytes) : Except Error (Head × Bytes) :=
  if Bytes.hasAtLeast head.payload body then .ok (head, body) else .error .inputTooShort

/-- Reads a payload length of `count` bytes, which must need all of them and be 56 or more. -/
def decodeLong (kind : ItemKind) (count : Nat) (bs : Bytes) : Except Error (Head × Bytes) :=
  if !Bytes.hasAtLeast count bs then .error .inputTooShort
  else if bs.head? = some 0 then .error .leadingZero
  else
    let length := Bytes.toNat (bs.take count)
    if length < 56 then .error .nonCanonicalSize
    else checkPayload ⟨kind, length⟩ (bs.drop count)

/-- Reads a head whose first byte announces a string of fewer than 56 bytes. A single byte below
`0x80` must not have a head at all. -/
def decodeShortString (payload : Nat) (bs : Bytes) : Except Error (Head × Bytes) :=
  if payload = 1 then
    match bs with
    | [] => .error .inputTooShort
    | b :: _ =>
      if b < 0x80 then .error .nonCanonicalSingleByte else checkPayload ⟨.string, payload⟩ bs
  else checkPayload ⟨.string, payload⟩ bs

/-- Reads the head off the front of a byte string and checks that its payload follows. A byte below
`0x80` is a payload of one byte, and is left in place. -/
def decode : Bytes → Except Error (Head × Bytes)
  | [] => .error .inputTooShort
  | b :: rest =>
    if b < 0x80 then .ok (⟨.string, 1⟩, b :: rest)
    else if b < 0xb8 then decodeShortString (b.toNat - 0x80) rest
    else if b < 0xc0 then decodeLong .string (b.toNat - 0xb7) rest
    else if b < 0xf8 then checkPayload ⟨.list, b.toNat - 0xc0⟩ rest
    else decodeLong .list (b.toNat - 0xf7) rest

end Head

/-- The fault of an item that is of this kind where the other one is needed. -/
def ItemKind.unexpected : ItemKind → Error
  | .string => .unexpectedString
  | .list => .unexpectedList

/-- Splits the payload of an item of the given kind off the front, and returns what follows it. -/
def takePayload (kind : ItemKind) (bs : Bytes) : Except Error (Bytes × Bytes) := do
  let (head, body) ← Head.decode bs
  if head.kind = kind then .ok (body.splitAt head.payload) else .error head.kind.unexpected

/-- A payload as a list: its head, and the payload. -/
def encodeList (payload : Bytes) : Bytes := (Head.mk .list payload.length).encode ++ payload

/-- Whether a string is written without a head. -/
def isOwnHead : Bytes → Bool
  | [b] => b < 0x80
  | _ => false

/-- A byte string as an item. -/
def encodeString (bs : Bytes) : Bytes :=
  if isOwnHead bs then bs else (Head.mk .string bs.length).encode ++ bs

/-- How many bytes a byte string takes as an item. -/
def stringSize (bs : Bytes) : Nat :=
  if isOwnHead bs then 1 else Head.size bs.length + bs.length

end Ethereum.Rlp
