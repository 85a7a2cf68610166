/-
The tree of a template document: what reading a source yields, what helpers receive and return, and what is compiled.

An element's first name is its identity, the name under which descendants override it. A name list that starts with an
absent entry gives class tokens only. Names that start with an underscore are private: they can be overridden but give
no class token.
-/

namespace BlockTemplates.Markup

/-! ## The tree -/

/-- the inherited content or attributes of an element, by default the one being written -/
structure SuperCall where
  elementName : Option String := none
deriving DecidableEq, Repr

/-- one attribute; a bare name has no value -/
structure Attribute where
  name : String
  value : Option String
deriving DecidableEq, Repr

/-- a list of attributes and the super call among them, wherever it stood -/
structure Attributes where
  superCall : Option SuperCall := none
  list : List Attribute := []
deriving DecidableEq, Repr

mutual

/-- one piece of content -/
inductive Node where
  | element (element : Element)
  | text (value : String)
  | comment (value : String) (multiline : Bool)
  | superCall (call : SuperCall)

/-- an element, or the invocation of a helper -/
structure Element where
  /-- whether `tagName` names a helper -/
  isHelper : Bool
  tagName : Option String
  /-- absent without a name list -/
  names : Option (List (Option String))
  attributes : Option Attributes
  /-- absent without braces, which is not the same as empty: it decides about the closing tag -/
  content : Option (List Node)

end

/-- one document, with the block name it declares -/
structure Block where
  name : Option String
  content : List Node

/-! ## Nesting -/

mutual

/-- how deep elements are nested, the node itself included -/
def Node.height : Node → Nat
  | .element ⟨_, _, _, _, none⟩ => 1
  | .element ⟨_, _, _, _, some content⟩ => nodesHeight content + 1
  | .text _ | .comment _ _ | .superCall _ => 0

/-- how deep elements are nested in any of the nodes -/
def nodesHeight : List Node → Nat
  | [] => 0
  | n :: ns => max n.height (nodesHeight ns)

end

/-- induction on content: the content of an element counts as smaller, and an element without content as empty -/
theorem nodes_induction {P : List Node → Prop} (nil : P []) (text : ∀ value ns, P ns → P (.text value :: ns))
    (comment : ∀ value multiline ns, P ns → P (.comment value multiline :: ns))
    (superCall : ∀ call ns, P ns → P (.superCall call :: ns))
    (element : ∀ e ns, P (e.content.getD []) → P ns → P (.element e :: ns)) : ∀ ns, P ns
  | [] => nil
  | .text value :: ns => text value ns (nodes_induction nil text comment superCall element ns)
  | .comment value multiline :: ns => comment value multiline ns (nodes_induction nil text comment superCall element ns)
  | .superCall call :: ns => superCall call ns (nodes_induction nil text comment superCall element ns)
  | .element ⟨helper, tag, names, attributes, none⟩ :: ns =>
    element ⟨helper, tag, names, attributes, none⟩ ns nil (nodes_induction nil text comment superCall element ns)
  | .element ⟨helper, tag, names, attributes, some content⟩ :: ns =>
    element ⟨helper, tag, names, attributes, some content⟩ ns
      (nodes_induction nil text comment superCall element content)
      (nodes_induction nil text comment superCall element ns)

/-! ## Names of an element -/

/-- private names give no class token -/
def isPrivateName (name : String) : Bool :=
  match name.toList with
  | '_' :: _ => true
  | _ => false

namespace Element

/-- the identity under which the element can be overridden -/
def name (e : Element) : Option String :=
  match e.names with
  | some (some n :: _) => some n
  | _ => none

/-- the names that are present, in order -/
def allNames (e : Element) : List String := (e.names.getD []).filterMap id

/-- the names that give class tokens -/
def classNames (e : Element) : List String := e.allNames.filter (fun n => !isPrivateName n)

theorem not_isPrivateName_of_mem_classNames {e : Element} {n : String} (h : n ∈ e.classNames) :
    isPrivateName n = false := by
  simpa using (List.mem_filter.1 h).2

end Element

end BlockTemplates.Markup
