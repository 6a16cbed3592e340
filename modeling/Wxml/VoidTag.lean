import Wxml.Text

/-!
# Void tags

The tags of elements that never have content.
-/

namespace Wxml

namespace VoidTag

/-- The void tags of HTML. -/
def html : List Text :=
  ["area", "base", "br", "col", "embed", "hr", "img", "input", "link", "meta", "param", "source",
    "track", "wbr"]

/-- The tags that WXML writes self-closing: those of HTML, and two of its own. -/
def wxml : List Text := html ++ (["image", "icon"] : List Text)

end VoidTag

end Wxml
