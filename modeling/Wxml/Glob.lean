import Wxml.Text.Bytes

/-!
# Globs

A glob is a pattern for whole paths, byte by byte.  A star stands for any text, slashes included;
two stars between slashes stand for any number of directories.  A glob that is about a file name
(`Glob.namesFile`) is for no path that ends in two dots, because those name no file.
-/

namespace Wxml

namespace Glob

/-- A piece of a glob. -/
inductive Token where
  | literal (c : Char)
  /-- Any one byte. -/
  | any
  /-- Any text. -/
  | anything
  /-- Nothing, or any text that ends in a slash. -/
  | leading
  /-- A slash and any text. -/
  | trailing
  /-- A slash, or any text between two slashes. -/
  | between
  /-- A byte of one of these ranges of characters, or of none. -/
  | oneOf (negated : Bool) (ranges : List (Char × Char))
  /-- One of these patterns. -/
  | either (branches : List (List Token))

/-- Whether a continuation accepts some end of the input. -/
def someEnd (k : Bytes → Bool) : Bytes → Bool
  | [] => k []
  | b :: bs => k (b :: bs) || someEnd k bs

/-- Whether a continuation accepts some end of the input that stands after a slash. -/
def someAfterSlash (k : Bytes → Bool) : Bytes → Bool
  | [] => false
  | b :: bs => (b == 0x2f && k bs) || someAfterSlash k bs

/-- The ranges of bytes that a range of characters stands for: the bytes of both ends, and those
between the last byte of the first and the first byte of the last. -/
def byteRanges (range : Char × Char) : List (UInt8 × UInt8) :=
  let low := String.utf8EncodeChar range.1
  let high := String.utf8EncodeChar range.2
  if range.1 = range.2 then low.map fun b => (b, b)
  else
    (low.dropLast.map fun b => (b, b)) ++ [(low.getLastD 0, high.headD 0)] ++
      (high.tail.map fun b => (b, b))

/-- Whether a byte is in one of the ranges of characters. -/
def inRanges (ranges : List (Char × Char)) (b : UInt8) : Bool :=
  (ranges.flatMap byteRanges).any fun (low, high) => low ≤ b && b ≤ high

mutual

/-- Whether a pattern stands for nothing at all. -/
def isVoid : List Token → Bool
  | [] => true
  | .either branches :: tokens => areVoid branches && isVoid tokens
  | _ :: _ => false

def areVoid : List (List Token) → Bool
  | [] => true
  | branch :: branches => isVoid branch && areVoid branches

end

mutual

/-- Whether a token accepts a start of the input after which the continuation accepts the rest. -/
def accepts (k : Bytes → Bool) : Token → Bytes → Bool
  | .literal c, input =>
    let bytes := String.utf8EncodeChar c
    bytes.isPrefixOf input && k (input.drop bytes.length)
  | .any, input => !input.isEmpty && k input.tail
  | .anything, input => someEnd k input
  | .leading, input => k input || someAfterSlash k input
  | .trailing, input => input.head? == some 0x2f && someEnd k input.tail
  | .between, input =>
    input.head? == some 0x2f && (k input.tail || someAfterSlash k input.tail)
  | .oneOf negated ranges, input =>
    match input with
    | [] => false
    | b :: bs => (inRanges ranges b != negated) && k bs
  | .either branches, input =>
    if areVoid branches then k input else acceptsSome k branches input

/-- Whether the tokens accept a start of the input, one after another. -/
def acceptsAll (k : Bytes → Bool) : List Token → Bytes → Bool
  | [], input => k input
  | token :: tokens, input => accepts (acceptsAll k tokens) token input

/-- Whether one of the patterns that stand for something accepts a start of the input. -/
def acceptsSome (k : Bytes → Bool) : List (List Token) → Bytes → Bool
  | [], _ => false
  | branch :: branches, input =>
    (!isVoid branch && acceptsAll k branch input) || acceptsSome k branches input

end

/-! ### File names -/

/-- The text that tokens stand for, if they are all literals. -/
def fixed? : List Token → Option Text
  | [] => some []
  | .literal c :: tokens => (fixed? tokens).map (c :: ·)
  | _ :: _ => none

/-- Whether a text is an extension: a dot, and after it neither a dot nor a slash. -/
def isExtension : Text → Bool
  | '.' :: t => t.all fun c => c != '.' && c != '/'
  | _ => false

/-- Whether a pattern ends in an extension. -/
def endsInExtension : List Token → Bool
  | [] => false
  | token :: tokens =>
    ((fixed? (token :: tokens)).map isExtension).getD false || endsInExtension tokens

/-- Whether a pattern asks for an extension.  One star and a fixed ending do so only if the ending
is an extension by itself. -/
def namesExtension : List Token → Bool
  | .anything :: tokens =>
    match fixed? tokens with
    | some ending => isExtension ending
    | none => endsInExtension tokens
  | tokens => endsInExtension tokens

/-- Whether a pattern is about a file name: it fixes the name in whatever directory, or asks for an
extension.  A pattern that is fixed as a whole is about a path. -/
def namesFile : List Token → Bool
  | .leading :: tokens =>
    match fixed? tokens with
    | some name => !name.isEmpty && !name.contains '/'
    | none => namesExtension tokens
  | tokens => (fixed? tokens).isNone && namesExtension tokens

/-- Whether two dots are all that stands after the last slash of a path. -/
def endsInParent (path : Bytes) : Bool := path.reverse.takeWhile (· != 0x2f) == [0x2e, 0x2e]

end Glob

/-- A pattern for whole paths. -/
structure Glob where
  tokens : List Glob.Token

/-- Whether a glob is for a path.  Two leading stars alone are for every path. -/
def Glob.isMatch (g : Glob) (path : Text) : Bool :=
  match g.tokens with
  | [.leading] => true
  | tokens =>
    acceptsAll List.isEmpty tokens (Text.bytes path) &&
      !(namesFile tokens && endsInParent (Text.bytes path))

end Wxml
