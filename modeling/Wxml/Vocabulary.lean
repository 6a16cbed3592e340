import Wxml.Rendering.Fault

/-!
# Tags and events of the two languages

Which tags of a template have a counterpart in WXML, which tags are written self-closing, and what
the events are called.  Names are compared exactly.
-/

namespace Wxml

namespace Vocabulary

/-- Tags that all become `view`. -/
def viewSources : List Text :=
  ["aside", "footer", "header", "h1", "h2", "h3", "h4", "h5", "h6", "nav", "section", "div", "dd",
    "dl", "dt", "ol", "ul", "li", "p", "main", "i", "table", "thead", "tbody", "td", "th", "tr",
    "fieldset", "legend", "a"]

/-- Tags of WXML that hold content or show it. -/
def contentTags : List Text :=
  ["view", "text", "block", "image", "rich-text", "web-view", "scroll-view", "swiper",
    "swiper-item", "movable-area", "movable-view", "cover-view", "cover-image", "icon", "progress",
    "navigator", "audio", "video", "camera", "live-player", "live-pusher", "map", "canvas",
    "open-data"]

/-- Tags of WXML for forms. -/
def formTags : List Text :=
  ["button", "checkbox", "checkbox-group", "form", "input", "label", "picker", "picker-view",
    "picker-view-column", "radio", "radio-group", "slider", "switch", "textarea"]

/-- Tags of WXML, which stay what they are. -/
def nativeTags : List Text := contentTags ++ formTags

/-- HTML tags without a counterpart. -/
def rejectedTags : List Text :=
  ["html", "head", "body", "title", "base", "link", "meta", "style", "script", "noscript", "object",
    "embed", "param", "frame", "frameset", "applet", "br", "hr", "area", "col", "colgroup", "wbr",
    "track", "source", "select", "option", "optgroup", "datalist", "output"]

/-- Vue's own elements, which need components and slots. -/
def builtinTags : List Text := ["slot", "component", "keep-alive", "transition", "transition-group"]

/-- What each event is called in WXML. -/
def events : List (Text × Text) :=
  [("click", "tap"), ("longpress", "longpress"), ("touchstart", "touchstart"),
    ("touchmove", "touchmove"), ("touchcancel", "touchcancel"), ("touchend", "touchend"),
    ("submit", "submit"), ("reset", "reset"), ("input", "input"), ("change", "change"),
    ("focus", "focus"), ("blur", "blur"), ("scroll", "scroll"), ("play", "play"),
    ("pause", "pause"), ("ended", "ended"), ("transitionend", "transitionend"),
    ("animationstart", "animationstart"), ("animationiteration", "animationiteration"),
    ("animationend", "animationend")]

/-- What becomes of a tag. -/
inductive TagRule where
  /-- It stays what it is. -/
  | native
  /-- It always becomes the same tag. -/
  | renamed (tag : Text)
  /-- It shows a page if it has a source, and otherwise its own content. -/
  | frame
  | rejected (reason : Rendering.TagReason)
  deriving DecidableEq, Repr

/-- The rule for a tag, if it is known. -/
def tagRule? (tag : Text) : Option TagRule :=
  if nativeTags.contains tag then some .native
  else if viewSources.contains tag then some (.renamed "view")
  else if tag = ("span" : Text) then some (.renamed "text")
  else if tag = ("template" : Text) then some (.renamed "block")
  else if tag = ("img" : Text) then some (.renamed "image")
  else if tag = ("iframe" : Text) then some .frame
  else if rejectedTags.contains tag then some (.rejected .noCounterpart)
  else if builtinTags.contains tag then some (.rejected .builtin)
  else none

/-- Whether a tag is written self-closing. -/
def isVoid (tag : Text) : Bool := VoidTag.wxml.contains tag

/-- The tag of a frame element: a page if it has a source, in any of the forms of that attribute. -/
def frameTag (e : Element) : Text :=
  if e.hasAttribute "src" || e.hasAttribute ":src" || e.hasAttribute "v-bind:src" then "web-view"
  else "rich-text"

/-- The tag an element becomes. -/
def destination (e : Element) : Except Rendering.Fault Text :=
  match tagRule? e.tag with
  | some .native => .ok e.tag
  | some (.renamed tag) => .ok tag
  | some .frame => .ok (frameTag e)
  | some (.rejected reason) => .error (.tag e.tag reason e.tagSpan)
  | none => .error (.tag e.tag .unknown e.tagSpan)

/-- What an event is called in WXML, if there is such an event. -/
def event? (name : Text) : Option Text := events.lookup name

end Vocabulary

end Wxml
