import Ethereum.Bytes.Basic

/-!
# Texts as bytes

A text is stored as the UTF-8 encoding of its characters.
-/

namespace Ethereum.Text

/-- The bytes of a text. -/
def toUtf8 (text : List Char) : Bytes := text.flatMap String.utf8EncodeChar

/-- The text that bytes store, if they store one. -/
def ofUtf8? (bs : Bytes) : Option String := String.fromUTF8? (ByteArray.mk bs.toArray)

end Ethereum.Text
