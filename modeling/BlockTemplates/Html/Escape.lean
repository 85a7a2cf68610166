/-
Escaping of text and of attribute values. The markup characters `&`, `<` and `>` become entities; in attribute values
both kinds of quotes do as well, so that a value can stand between either.
-/

namespace BlockTemplates.Html

/-- where a text is written to: between tags, or as the value of an attribute -/
inductive Place where
  | text
  | value
deriving DecidableEq, Repr

/-- what is written for one character -/
def entity : Place → Char → List Char
  | _, '&' => ['&', 'a', 'm', 'p', ';']
  | _, '<' => ['&', 'l', 't', ';']
  | _, '>' => ['&', 'g', 't', ';']
  | .value, '"' => ['&', 'q', 'u', 'o', 't', ';']
  | .value, '\'' => ['&', '#', '3', '9', ';']
  | _, c => [c]

/-- the escaped form of a text, character by character -/
def escapeChars (place : Place) (s : List Char) : List Char := s.flatMap (entity place)

def escape (place : Place) (s : String) : String := String.ofList (escapeChars place s.toList)

/-- escaped to stand between tags -/
def escapeText (s : String) : String := escape .text s

/-- escaped to stand between quotes -/
def escapeAttribute (s : String) : String := escape .value s

theorem escapeChars_append (place : Place) (s t : List Char) :
    escapeChars place (s ++ t) = escapeChars place s ++ escapeChars place t := by
  simp [escapeChars]

theorem escape_append (place : Place) (s t : String) : escape place (s ++ t) = escape place s ++ escape place t := by
  simp [escape, escapeChars_append, String.ofList_append]

end BlockTemplates.Html
