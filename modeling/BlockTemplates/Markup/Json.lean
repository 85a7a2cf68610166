/-
The JSON form of trees. Every record is an object with one field per component, nodes carry their kind in `nodeType`.
Writing gives all fields in a fixed order. Reading takes fields in any order, ignores fields it does not know, and takes
a missing field for null, which only the nullable ones accept; a record may also stand as the array of its components.
-/
import BlockTemplates.Json.Basic
import BlockTemplates.Markup.Tree

namespace BlockTemplates.Markup

/-! ## Writing -/

def SuperCall.toJson (c : SuperCall) : Json := .object [("elementName", Json.nullable .string c.elementName)]

def Attribute.toJson (a : Attribute) : Json :=
  .object [("name", .string a.name), ("value", Json.nullable .string a.value)]

def Attributes.toJson (a : Attributes) : Json :=
  .object [("superCall", Json.nullable SuperCall.toJson a.superCall), ("list", .array (a.list.map Attribute.toJson))]

/-- a name list, with null for the absent entry -/
def namesToJson (names : List (Option String)) : Json := .array (names.map (Json.nullable .string))

/-- the fields of an element, given the form of its content -/
def elementFields (isHelper : Bool) (tagName : Option String) (names : Option (List (Option String)))
    (attributes : Option Attributes) (content : Json) : List (String × Json) :=
  [("isHelper", .bool isHelper), ("tagName", Json.nullable .string tagName), ("names", Json.nullable namesToJson names),
   ("attributes", Json.nullable Attributes.toJson attributes), ("content", content)]

mutual

def Node.toJson : Node → Json
  | .element ⟨helper, tag, names, attributes, none⟩ =>
    .object (("nodeType", .string "Element") :: elementFields helper tag names attributes .null)
  | .element ⟨helper, tag, names, attributes, some content⟩ =>
    .object (("nodeType", .string "Element") ::
      elementFields helper tag names attributes (.array (nodesToJson content)))
  | .text value => .object [("nodeType", .string "Text"), ("value", .string value)]
  | .comment value multiline =>
    .object [("nodeType", .string "Comment"), ("value", .string value), ("multiline", .bool multiline)]
  | .superCall c =>
    .object [("nodeType", .string "SuperCall"), ("elementName", Json.nullable .string c.elementName)]

def nodesToJson : List Node → List Json
  | [] => []
  | n :: ns => n.toJson :: nodesToJson ns

end

def Block.toJson (b : Block) : Json :=
  .object [("name", Json.nullable .string b.name), ("content", .array (nodesToJson b.content))]

/-! ## Reading -/

/-- the components of a record in the order of `names`; null for a field that is missing -/
def record? (names : List String) : Json → Option (List Json)
  | .object fields => some (names.map fun name => (fields.lookup name).getD .null)
  | .array items => if items.length = names.length then some items else none
  | _ => none

def SuperCall.ofJson? (j : Json) : Option SuperCall := do
  match ← record? ["elementName"] j with
  | [name] => return ⟨← Json.ofNullable? Json.string? name⟩
  | _ => none

def Attribute.ofJson? (j : Json) : Option Attribute := do
  match ← record? ["name", "value"] j with
  | [name, value] => return ⟨← name.string?, ← Json.ofNullable? Json.string? value⟩
  | _ => none

def Attributes.ofJson? (j : Json) : Option Attributes := do
  match ← record? ["superCall", "list"] j with
  | [superCall, list] =>
    return ⟨← Json.ofNullable? SuperCall.ofJson? superCall, ← (← list.array?).mapM Attribute.ofJson?⟩
  | _ => none

def names? (j : Json) : Option (List (Option String)) := do (← j.array?).mapM (Json.ofNullable? Json.string?)

/-- an element from its components other than the content, and its content -/
def element? (components : List Json) (content : Option (List Node)) : Option Element := do
  match components with
  | [helper, tag, names, attributes] =>
    return ⟨← helper.bool?, ← Json.ofNullable? Json.string? tag, ← Json.ofNullable? names? names,
      ← Json.ofNullable? Attributes.ofJson? attributes, content⟩
  | _ => none

/-- the components of an element without its content -/
def elementComponents : List String := ["isHelper", "tagName", "names", "attributes"]

/-- the kinds of nodes -/
inductive NodeKind where
  | element
  | text
  | comment
  | superCall
deriving DecidableEq, Repr

/-- a kind by its name, inside elements also by its number -/
def NodeKind.ofJson? (inElement : Bool) : Json → Option NodeKind
  | .string "Element" => some .element
  | .string "Text" => some .text
  | .string "Comment" => some .comment
  | .string "SuperCall" => some .superCall
  | .number digits =>
    if inElement then [("0", .element), ("1", .text), ("2", .comment), ("3", .superCall)].lookup digits else none
  | _ => none

/-- a node without content of its own, from its components -/
def leaf? (kind : NodeKind) (j : Json) : Option Node := do
  match kind with
  | .text =>
    match ← record? ["value"] j with
    | [value] => return .text (← value.string?)
    | _ => none
  | .comment =>
    match ← record? ["value", "multiline"] j with
    | [value, multiline] => return .comment (← value.string?) (← multiline.bool?)
    | _ => none
  | .superCall => return .superCall (← SuperCall.ofJson? j)
  | .element => none

mutual

def Node.ofJson? (inElement : Bool) : Json → Option Node
  | .object fields =>
    match NodeKind.ofJson? inElement ((fields.lookup "nodeType").getD .null) with
    | some .element => do
      let content ← contentField? true fields
      let components ← record? elementComponents (.object fields)
      return .element (← element? components content)
    | some kind => leaf? kind (.object fields)
    | none => none
  | .array (tag :: items) =>
    match NodeKind.ofJson? inElement tag, items with
    | some .element, [helper, tagName, names, attributes, content] => do
      return .element (← element? [helper, tagName, names, attributes] (← content? true content))
    | some kind, items => leaf? kind (.array items)
    | none, _ => none
  | _ => none

/-- nullable content -/
def content? (inElement : Bool) : Json → Option (Option (List Node))
  | .null => some none
  | .array items => (nodes? inElement items).map some
  | _ => none

/-- the content among the fields of an element -/
def contentField? (inElement : Bool) : List (String × Json) → Option (Option (List Node))
  | [] => some none
  | (name, j) :: fields => if name = "content" then content? inElement j else contentField? inElement fields

def nodes? (inElement : Bool) : List Json → Option (List Node)
  | [] => some []
  | j :: js => do return (← Node.ofJson? inElement j) :: (← nodes? inElement js)

end

def Element.ofJson? : Json → Option Element
  | .object fields => do
    element? (← record? elementComponents (.object fields)) (← contentField? false fields)
  | .array [helper, tagName, names, attributes, content] => do
    element? [helper, tagName, names, attributes] (← content? false content)
  | _ => none

def Block.ofJson? (j : Json) : Option Block := do
  match ← record? ["name", "content"] j with
  | [name, content] => return ⟨← Json.ofNullable? Json.string? name, ← nodes? false (← content.array?)⟩
  | _ => none

end BlockTemplates.Markup
