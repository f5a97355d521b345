import Chomsky.Text.Lines

/-!
# Texts as bytes

* `decode?` — the text that bytes spell in UTF-8.
* `encode` — the bytes of a text.

Principal result: `decode?_encode` — the bytes of a text are read back.
-/

namespace Chomsky.Text

/-- Bytes, as a list. -/
abbrev Bytes := List UInt8

/-- The text that bytes spell in UTF-8, if they do. -/
def decode? (bytes : Bytes) : Option Text :=
  bytes.toByteArray.utf8Decode?.map Array.toList

/-- The bytes of a text in UTF-8. -/
def encode (t : Text) : Bytes := (String.ofList t).toUTF8.data.toList

theorem decode?_encode (t : Text) : decode? (encode t) = some t := by
  have h : (encode t).toByteArray = t.utf8Encode := by
    apply ByteArray.ext
    simp [encode]
  simp [decode?, h]

end Chomsky.Text
