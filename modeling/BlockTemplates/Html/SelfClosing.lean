/-
Tags that are written without a closing tag: the void elements of HTML, those browsers still treat as void, and the
shapes of SVG. Tag names are compared as they are written, in lower case.
-/

namespace BlockTemplates.Html

/-- void elements, obsolete ones included -/
def voidTags : List String :=
  ["area", "base", "basefont", "br", "col", "command", "embed", "frame", "hr", "img", "input", "isindex", "keygen",
   "link", "meta", "param", "source", "track", "wbr"]

/-- SVG shapes, which are accepted unclosed inside `svg` -/
def shapeTags : List String := ["circle", "ellipse", "line", "path", "polygon", "polyline", "rect", "stop", "use"]

def selfClosingTags : List String := voidTags ++ shapeTags

def isSelfClosing (tag : String) : Bool := selfClosingTags.contains tag

end BlockTemplates.Html
