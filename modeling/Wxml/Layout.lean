import Wxml.Layout.Token

/-!
# Layout

Markup is laid out line by line: a tag, a comment or a line of text each on a line of its own, as
deep as the elements around it.  An element with no content or a single line of text stays on one
line.  `Layout.layOut` turns tokens into lines and `Layout.format` joins them.
-/

namespace Wxml

namespace Layout

/-- Where the layout stands between two tokens: how many elements are open, how many blank lines are
due before the next line, and whether there is a line at all. -/
structure State where
  level : Nat
  blanks : Nat
  begun : Bool
  deriving DecidableEq, Repr

/-- Before the first token. -/
def State.start : State := ⟨0, 0, false⟩

/-- A line at the present level, after the blank lines that are due. -/
def line (o : Options) (s : State) (content : Text) : List Text × State :=
  ((if s.begun then List.replicate s.blanks [] else []) ++ [o.indent s.level ++ content],
    { s with blanks := 0, begun := true })

/-- Makes the blank lines due that a number of line breaks in a row stand for. -/
def noteBreaks (o : Options) (s : State) (breaks : Nat) : State :=
  if o.preserveNewlines && 1 < breaks then
    { s with blanks := max s.blanks (min breaks o.maxPreserveNewlines - 1) }
  else s

/-- The lines of a text.  `breaks` counts the line breaks since the last line that was not blank,
and the parts are what stands between the line breaks. -/
def textParts (o : Options) (s : State) (breaks : Nat) : List Text → List Text × State
  | [] => ([], noteBreaks o s (breaks - 1))
  | part :: parts =>
    let content := Text.trim part
    if content.isEmpty then textParts o s (breaks + 1) parts
    else
      let (here, s) := line o (noteBreaks o s breaks) content
      let (later, s) := textParts o s 1 parts
      (here ++ later, s)

/-- The lines of a text, each without the blanks around it. -/
def textLines (o : Options) (s : State) (content : Text) : List Text × State :=
  textParts o s 0 (Text.splitOn '\n' content)

/-- The lines of a raw content, without the line breaks around it and the carriage returns at the
ends of its lines. -/
def rawBody (content : Text) : List Text :=
  (Text.splitOn '\n' (Text.dropEndWhile (· == '\n') (content.dropWhile (· == '\n')))).map
    (Text.dropEndWhile (· == '\r'))

/-- The number of bytes of blanks a line starts with. -/
def leading (l : Text) : Nat := Text.size (l.takeWhile isBlank)

/-- The indentation in bytes that all lines have in common, blank ones aside. -/
def commonIndent (body : List Text) : Nat :=
  (((body.filter (!Text.allBlank ·)).map leading).min?).getD 0

/-- A line of a script without the common indentation, behind `indent`. -/
def reindent (indent : Text) (common : Nat) (l : Text) : Text :=
  if Text.allBlank l then [] else indent ++ (Text.dropBytes? common l).getD (Text.trimStart l)

/-- The lines of a raw content. -/
def rawLines (o : Options) (s : State) (content : Text) (script : Bool) : List Text × State :=
  let body := rawBody content
  if body.all Text.allBlank then ([], s)
  else
    let lines :=
      match (if script then o.indentScripts else .keep) with
      | .keep => body
      | .separate => body.map (reindent [] (commonIndent body))
      | .normal => body.map (reindent (o.indent s.level) (commonIndent body))
    (lines, { s with begun := true })

/-- An element that fits on one line, as that line, and the number of tokens after its opening tag
that belong to it: it has no content, or one line of text.  In a `text` element the blanks around
the text are content. -/
def inline? (name markup : Text) : List Token → Option (Text × Nat)
  | .closed n close :: _ => if n = name then some (markup ++ close, 1) else none
  | .text content :: .closed n close :: _ =>
    if n = name then
      if name = ("text" : Text) && !content.isEmpty && !content.contains '\n' then
        some (markup ++ content ++ close, 2)
      else
        let content := Text.trim content
        if !content.isEmpty && !content.contains '\n' then some (markup ++ content ++ close, 2)
        else none
    else none
  | _ => none

/-- The lines of a token by itself. -/
def tokenLines (o : Options) (s : State) : Token → List Text × State
  | .opened _ markup =>
    let (here, s) := line o s markup
    (here, { s with level := s.level + 1 })
  | .closed _ markup => line o { s with level := s.level - 1 } markup
  | .selfClosing markup => line o s markup
  | .comment markup => line o s markup
  | .text content => textLines o s content
  | .raw content script => rawLines o s content script

/-- Some lines, and those that come after them in the state they lead to. -/
def andThen (here : List Text × State) (later : State → List Text × State) : List Text × State :=
  (here.1 ++ (later here.2).1, (later here.2).2)

/-- The lines of some tokens and the state after them. -/
def layOut (o : Options) (s : State) : List Token → List Text × State
  | [] => ([], s)
  | .opened name markup :: tokens =>
    match inline? name markup tokens with
    | some (content, used) => andThen (line o s content) fun s => layOut o s (tokens.drop used)
    | none => andThen (tokenLines o s (.opened name markup)) fun s => layOut o s tokens
  | token :: tokens => andThen (tokenLines o s token) fun s => layOut o s tokens
termination_by tokens => tokens.length
decreasing_by all_goals (simp only [List.length_drop, List.length_cons]; omega)

/-- The lines of some tokens. -/
def lines (o : Options) (s : State) (tokens : List Token) : List Text := (layOut o s tokens).1

/-- The lines joined to one text. -/
def joinLines (o : Options) (ls : List Text) : Text :=
  let out := Text.join o.eol ls
  if o.endWithNewline && !out.isEmpty then out ++ o.eol else out

/-- The tokens laid out. -/
def print (o : Options) (tokens : List Token) : Text := joinLines o (lines o .start tokens)

/-- The markup laid out. -/
def format (o : Options) (source : Text) : Text := print o (Token.ofText o source)

end Layout

end Wxml
