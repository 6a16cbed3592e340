import Wxml.Expression
import Wxml.Template

/-!
# What cannot be rendered

A `Rendering.Fault` says which construct of a template has no counterpart in WXML, why, and where
it stands.  The words for it are in `Fault.message`.
-/

namespace Wxml

namespace Rendering

/-- Why a tag has no counterpart. -/
inductive TagReason where
  | noCounterpart
  | builtin
  | unknown
  deriving DecidableEq, Repr

/-- Why a directive has no counterpart. -/
inductive DirectiveReason where
  | rawHtml
  | twoWay
  | compileTime
  | slot
  | objectArgument
  | dynamicArgument
  | noCounterpart
  /-- Another attribute of the element already sets this name. -/
  | alreadySet (name : Text)
  /-- The element this becomes has no content. -/
  | voidElement (tag : Text)
  deriving DecidableEq, Repr

/-- Why an expression has no counterpart. -/
inductive ExpressionReason where
  | filter
  | loopForm
  | missingValue
  | missingHandler
  | objectOrArray
  /-- A loop key is the item or a property of the item. -/
  | keyForm (item : Text)
  deriving DecidableEq, Repr

/-- A construct of a template that has no counterpart. -/
inductive Fault where
  | tag (tag : Text) (reason : TagReason) (span : Span)
  | modifier (key modifier : Text) (span : Span)
  | event (event : Text) (span : Span)
  | directive (key : Text) (reason : DirectiveReason) (span : Span)
  | expression (expression : Text) (reason : ExpressionReason) (span : Span)
  /-- The text is no template at all. -/
  | template (fault : Template.Fault)
  deriving DecidableEq, Repr

def TagReason.message : TagReason → Text
  | noCounterpart => "it has no WXML equivalent"
  | builtin => "Vue built-in components and slots are not translated"
  | unknown => "unknown tag; custom components are not translated"

def DirectiveReason.message : DirectiveReason → Text
  | rawHtml => "use a <rich-text> element with a `nodes` binding instead"
  | twoWay => "two-way binding is not supported; bind the value and handle `input` instead"
  | compileTime => "compile-time directives are not supported"
  | slot => "slots are not translated"
  | objectArgument => "object syntax is not supported"
  | dynamicArgument => "dynamic arguments are not supported"
  | noCounterpart => "the directive has no WXML counterpart"
  | alreadySet name => "`" ++ name ++ "` is already set on this element"
  | voidElement tag => "<" ++ tag ++ "> is a void element and cannot hold content"

def ExpressionReason.message : ExpressionReason → Text
  | filter => "filters are not supported"
  | loopForm => "expected `item in list` or `(item, index) in list`"
  | missingValue => "the directive needs a value"
  | missingHandler => "event bindings need a handler"
  | objectOrArray => "object and array bindings are not supported"
  | keyForm item => "wx:key must be `" ++ item ++ "` or a property of `" ++ item ++ "`"

namespace Fault

def message : Fault → Text
  | tag name reason _ => "unsupported tag <" ++ name ++ ">: " ++ reason.message
  | modifier key dotted _ => "unsupported modifier `." ++ dotted ++ "` on `" ++ key ++ "`"
  | event name _ => "unsupported event `" ++ name ++ "`: it has no WXML counterpart"
  | directive key reason _ => "unsupported directive `" ++ key ++ "`: " ++ reason.message
  | expression e reason _ => "unsupported expression `" ++ e ++ "`: " ++ reason.message
  | template fault => fault.message

/-- Where the construct stands in the template. -/
def span : Fault → Span
  | tag _ _ span => span
  | modifier _ _ span => span
  | event _ span => span
  | directive _ _ span => span
  | expression _ _ span => span
  | template fault => fault.span

def code : Fault → Text
  | tag _ _ _ => "unsupported-tag"
  | modifier _ _ _ => "unsupported-modifier"
  | event _ _ => "unsupported-event"
  | directive _ _ _ => "unsupported-directive"
  | expression _ _ _ => "unsupported-expression"
  | template _ => "parse-error"

end Fault

/-- Refuses an expression with a filter in it. -/
def rejectFilter (e : Text) (span : Span) : Except Fault Unit :=
  if Expression.hasFilter e then .error (.expression e .filter span) else .ok ()

/-- The loop that a text is the head of, or the reason why it is none. -/
def loop (head : Text) (span : Span) : Except Fault Loop :=
  match Loop.parse? head with
  | none => .error (.expression head .loopForm span)
  | some loop => (rejectFilter loop.source span).map fun _ => loop

end Rendering

end Wxml
