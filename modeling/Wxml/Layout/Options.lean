import Wxml.Text

/-!
# Layout options

How markup is laid out: the indentation, the blank lines that are kept, the line end, and what is
done with the content of scripts.
-/

namespace Wxml

namespace Layout

/-- How the content of a script or style is laid out. -/
inductive ScriptIndent where
  /-- As it is written. -/
  | keep
  /-- Without the indentation its lines have in common. -/
  | separate
  /-- Without the indentation its lines have in common, and as deep as the tag's content. -/
  | normal
  deriving DecidableEq, Repr

/-- How markup is laid out. -/
structure Options where
  indentSize : Nat
  indentChar : Char
  indentWithTabs : Bool
  /-- Whether blank lines in text are kept. -/
  preserveNewlines : Bool
  /-- How many line breaks in a row are kept. -/
  maxPreserveNewlines : Nat
  indentScripts : ScriptIndent
  /-- The tags whose content is copied as it stands. -/
  unformatted : List Text
  endWithNewline : Bool
  /-- What stands between two lines. -/
  eol : Text
  deriving DecidableEq, Repr

namespace Options

/-- Two spaces a level, and at most nine blank lines in a row. -/
def default : Options :=
  ⟨2, ' ', false, true, 10, .keep, [], false, "\n"⟩

instance : Inhabited Options := ⟨default⟩

/-- The indentation of one level. -/
def indentUnit (o : Options) : Text :=
  if o.indentWithTabs then ['\t'] else List.replicate o.indentSize o.indentChar

/-- The indentation of a number of levels. -/
def indent (o : Options) (level : Nat) : Text := (List.replicate level o.indentUnit).flatten

end Options

end Layout

end Wxml
