/-
JSON values. Objects keep their fields in order, since printing shows it; a number is kept as the text it was written
with, because no document of this library holds one.
-/

namespace BlockTemplates

inductive Json where
  | null
  | bool (value : Bool)
  | number (text : String)
  | string (value : String)
  | array (items : List Json)
  | object (fields : List (String × Json))
deriving Inhabited

namespace Json

/-- null for an absent value -/
def nullable {α : Type} (encode : α → Json) : Option α → Json
  | none => .null
  | some a => encode a

/-- reading back what `nullable` wrote; a missing field counts as null -/
def ofNullable? {α : Type} (decode : Json → Option α) : Json → Option (Option α)
  | .null => some none
  | j => (decode j).map some

def bool? : Json → Option Bool
  | .bool b => some b
  | _ => none

def string? : Json → Option String
  | .string s => some s
  | _ => none

def array? : Json → Option (List Json)
  | .array js => some js
  | _ => none

end Json

end BlockTemplates
