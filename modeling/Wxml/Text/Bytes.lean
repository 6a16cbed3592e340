import Wxml.Text

/-!
# Text in bytes

Files hold bytes.  A text is stored in UTF-8, and not every sequence of bytes is a text.
-/

namespace Wxml

/-- The content of a file. -/
abbrev Bytes := List UInt8

namespace Text

/-- The bytes of a text in UTF-8. -/
def bytes (t : Text) : Bytes := t.flatMap String.utf8EncodeChar

/-- The text that bytes are, if they are one in UTF-8. -/
def ofBytes? (b : Bytes) : Option Text := (String.fromUTF8? ⟨b.toArray⟩).map String.toList

end Text

end Wxml
