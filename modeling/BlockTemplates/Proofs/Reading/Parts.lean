/-
How documents read, without operations. A document is read node by node, in order, into `Parts`: helpers give way to the
nodes they return, every element has its tag and its attributes, every super call its target. The documents of a chain,
each read on top of its ancestors, expand to markup: a named element to the last definition of its name in the nearest
level, counted from the leaf, and a super call to the content of its target in the nearest level below its own.

Main statements: `Reads.unique` (documents read in one way only) and `Expansion.unique` (and expand in one way only). What
an expansion has to do with rendering is `Proofs/Rendering/Expansion`.
-/
import BlockTemplates.Template.Compile

namespace BlockTemplates

open Html Markup Render

/-! ## Elements -/

/-- an element of a document, with what could be made out about it -/
structure Occurrence where
  element : Element
  /-- the tag, or the name of the helper -/
  tag : Option String
  /-- the attributes, inherited ones included; absent if none are written -/
  slots : Option AttributeSlots

namespace Occurrence

def tagName (o : Occurrence) : String := o.tag.getD defaultTag

/-- one attribute; the class tokens stand before the value of the class attribute -/
def slotText (prefixes classNames : List String) (slot : String × Option String) : String :=
  let value := slot.2.getD ""
  let tokens :=
    if slot.1 = "class" ∧ classNames ≠ [] then classTokens prefixes classNames ++ (if value = "" then "" else " ")
    else ""
  " " ++ slot.1 ++ "=\"" ++ tokens ++ escapeAttribute value ++ "\""

/-- the attributes in their order; class tokens that find no class attribute make one, in front -/
def attributeText (prefixes classNames : List String) (slots : AttributeSlots) : String :=
  (if classNames ≠ [] ∧ (slots.position? "class").isNone then " class=\"" ++ classTokens prefixes classNames ++ "\""
    else "") ++ String.join (slots.pairs.map (slotText prefixes classNames))

def opening (o : Occurrence) (prefixes : List String) : String :=
  "<" ++ o.tagName ++ attributeText prefixes o.element.classNames (o.slots.getD {}) ++ ">"

/-- nothing, for an element without braces whose tag closes itself -/
def closing (o : Occurrence) : String :=
  if o.element.content.isSome || !isSelfClosing o.tagName then "</" ++ o.tagName ++ ">" else ""

/-- an element with the given content; helpers have no tags of their own -/
def around (o : Occurrence) (prefixes : List String) (content : String) : String :=
  if o.element.isHelper then content else o.opening prefixes ++ content ++ o.closing

end Occurrence

/-! ## Parts -/

/-- a run of content as it reads -/
inductive Parts where
  | done
  | text (value : String) (rest : Parts)
  /-- an element without a name -/
  | anonymous (o : Occurrence) (children rest : Parts)
  /-- an element with a name, which it defines -/
  | named (name : String) (o : Occurrence) (children rest : Parts)
  | superCall (target : String) (rest : Parts)

/-- an element with its content -/
structure Definition where
  occurrence : Occurrence
  children : Parts

namespace Parts

def append : Parts → Parts → Parts
  | .done, ps => ps
  | .text value rest, ps => .text value (rest.append ps)
  | .anonymous o children rest, ps => .anonymous o children (rest.append ps)
  | .named name o children rest, ps => .named name o children (rest.append ps)
  | .superCall target rest, ps => .superCall target (rest.append ps)

/-- the definitions in the order in which they are complete -/
def definitions : Parts → List (String × Definition)
  | .done => []
  | .text _ rest | .superCall _ rest => rest.definitions
  | .anonymous _ children rest => children.definitions ++ rest.definitions
  | .named name o children rest => children.definitions ++ (name, ⟨o, children⟩) :: rest.definitions

/-- the attributes of named elements in the order in which they begin -/
def slotLists : Parts → List (String × AttributeSlots)
  | .done => []
  | .text _ rest | .superCall _ rest => rest.slotLists
  | .anonymous _ children rest => children.slotLists ++ rest.slotLists
  | .named name o children rest => (o.slots.map (name, ·)).toList ++ (children.slotLists ++ rest.slotLists)

theorem definitions_append (ps qs : Parts) : (ps.append qs).definitions = ps.definitions ++ qs.definitions := by
  induction ps with
  | done => rfl
  | text value rest ih => exact ih
  | anonymous o children rest _ ih => simp [append, definitions, ih]
  | named name o children rest _ ih => simp [append, definitions, ih]
  | superCall target rest ih => exact ih

theorem slotLists_append (ps qs : Parts) : (ps.append qs).slotLists = ps.slotLists ++ qs.slotLists := by
  induction ps with
  | done => rfl
  | text value rest ih => exact ih
  | anonymous o children rest _ ih => simp [append, slotLists, ih]
  | named name o children rest _ ih => simp [append, slotLists, ih]
  | superCall target rest ih => exact ih

end Parts

/-! ## Reading one document -/

/-- the tags that names were first given, so far -/
abbrev Tags := List (String × String)

/-- keep the first tag that a name is given -/
def Tags.note (name tag : String) (tags : Tags) : Tags :=
  if (tags.lookup name).isSome then tags else (name, tag) :: tags

/-- the tags after an element has begun -/
def Tags.after (tags : Tags) (e : Element) : Tags :=
  match e.name, e.tagName with
  | some name, some tag => tags.note name tag
  | _, _ => tags

/-- what the reading of a document depends on besides its nodes -/
structure Context where
  helpers : Registry
  /-- the tag of a name in the nearest ancestor that gives one -/
  tag? : String → Option String
  /-- the attributes of a name in the nearest ancestor that has any -/
  slots? : String → Option AttributeSlots

namespace Context

variable (ctx : Context)

/-- the tag written, else the one that the name has by then -/
def tagOf (tags : Tags) (e : Element) : Option String :=
  match e.name, e.tagName with
  | some name, none => tags.lookup name <|> ctx.tag? name
  | _, tag => tag

/-- the attributes of an element, if any are written; a super call starts from those of its target -/
def slotsOf (e : Element) : Option AttributeSlots :=
  match e.attributes with
  | none => none
  | some ⟨none, []⟩ => none
  | some ⟨none, list⟩ => some (AttributeSlots.setAll {} list)
  | some ⟨some call, list⟩ => some ((((call.elementName <|> e.name).bind ctx.slots?).getD {}).setAll list)

/-- the nodes that make up an element: its content, or what its helper returns -/
def inner (e : Element) (tag : Option String) : Option (List Node) :=
  if e.isHelper then (tag.bind ctx.helpers.find?).map fun helper => (helper e).getD []
  else some (e.content.getD [])

end Context

/-- nodes inside the named element `within` read as parts, and what tags are given before and after -/
inductive Reads (ctx : Context) : Option String → Tags → List Node → Tags → Parts → Prop
  | done {within tags} : Reads ctx within tags [] tags .done
  | text {within tags nodes tags' ps} (value : String) :
    Reads ctx within tags nodes tags' ps → Reads ctx within tags (.text value :: nodes) tags' (.text value ps)
  | comment {within tags nodes tags' ps} (value : String) (multiline : Bool) :
    Reads ctx within tags nodes tags' ps → Reads ctx within tags (.comment value multiline :: nodes) tags' ps
  | superCall {within tags nodes tags' ps} {call : SuperCall} {target : String} :
    (call.elementName <|> within) = some target → Reads ctx within tags nodes tags' ps →
      Reads ctx within tags (.superCall call :: nodes) tags' (.superCall target ps)
  | named {within tags nodes tags₁ tags₂ children ps} {e : Element} {name : String} {inner : List Node} :
    e.name = some name → ctx.inner e (ctx.tagOf tags e) = some inner →
      Reads ctx (some name) (tags.after e) inner tags₁ children → Reads ctx within tags₁ nodes tags₂ ps →
      Reads ctx within tags (.element e :: nodes) tags₂ (.named name ⟨e, ctx.tagOf tags e, ctx.slotsOf e⟩ children ps)
  | anonymous {within tags nodes tags₁ tags₂ children ps} {e : Element} :
    e.name = none → e.isHelper = false → Reads ctx within tags (e.content.getD []) tags₁ children →
      Reads ctx within tags₁ nodes tags₂ ps →
      Reads ctx within tags (.element e :: nodes) tags₂ (.anonymous ⟨e, e.tagName, ctx.slotsOf e⟩ children ps)
  /-- a helper element without a name stands for what the helper returns -/
  | spliced {within tags nodes tags₁ tags₂ children ps} {e : Element} {inner : List Node} :
    e.name = none → e.isHelper = true → ctx.inner e e.tagName = some inner →
      Reads ctx within tags inner tags₁ children → Reads ctx within tags₁ nodes tags₂ ps →
      Reads ctx within tags (.element e :: nodes) tags₂ (children.append ps)

theorem Reads.unique {ctx : Context} {within : Option String} {tags tags₁ tags₂ : Tags} {nodes : List Node}
    {ps qs : Parts} (h : Reads ctx within tags nodes tags₁ ps) (h' : Reads ctx within tags nodes tags₂ qs) :
    tags₁ = tags₂ ∧ ps = qs := by
  induction h generalizing tags₂ qs with
  | done =>
    cases h'
    exact ⟨rfl, rfl⟩
  | text value _ ih =>
    cases h' with
    | text _ h' =>
      obtain ⟨rfl, rfl⟩ := ih h'
      exact ⟨rfl, rfl⟩
  | comment value multiline _ ih =>
    cases h' with
    | comment _ _ h' => exact ih h'
  | superCall ht _ ih =>
    cases h' with
    | superCall ht' h' =>
      obtain ⟨rfl, rfl⟩ := ih h'
      cases ht.symm.trans ht'
      exact ⟨rfl, rfl⟩
  | named hn hi _ _ ihc ih =>
    cases h' with
    | named hn' hi' hc' h' =>
      cases hn.symm.trans hn'
      cases hi.symm.trans hi'
      obtain ⟨rfl, rfl⟩ := ihc hc'
      obtain ⟨rfl, rfl⟩ := ih h'
      exact ⟨rfl, rfl⟩
    | anonymous hn' => simp [hn] at hn'
    | spliced hn' => simp [hn] at hn'
  | anonymous hn hh _ _ ihc ih =>
    cases h' with
    | named hn' => simp [hn] at hn'
    | anonymous _ _ hc' h' =>
      obtain ⟨rfl, rfl⟩ := ihc hc'
      obtain ⟨rfl, rfl⟩ := ih h'
      exact ⟨rfl, rfl⟩
    | spliced _ hh' => simp [hh] at hh'
  | spliced hn hh hi _ _ ihc ih =>
    cases h' with
    | named hn' => simp [hn] at hn'
    | anonymous _ hh' => simp [hh] at hh'
    | spliced _ _ hi' hc' h' =>
      cases hi.symm.trans hi'
      obtain ⟨rfl, rfl⟩ := ihc hc'
      obtain ⟨rfl, rfl⟩ := ih h'
      exact ⟨rfl, rfl⟩

/-! ## Reading a chain -/

/-- a document with the settings it is compiled under -/
structure Document where
  block : Block
  options : Options := {}

/-- the block names of a document: those of the settings, else the one it declares -/
def Document.blockNames (d : Document) : List String :=
  if d.options.blockNames.isEmpty then d.block.name.toList else d.options.blockNames

/-- one document as it reads -/
structure Reading where
  /-- what stands before element names in class tokens -/
  prefixes : List String
  parts : Parts
  tags : Tags

/-- the last complete definition of a name -/
def Reading.definition? (r : Reading) (name : String) : Option Definition := r.parts.definitions.reverse.lookup name

/-- the definition of a name in the nearest level, with the readings from that level on -/
def findDefinition (name : String) : List Reading → Option (List Reading × Definition)
  | [] => none
  | r :: rs =>
    match r.definition? name with
    | some d => some (r :: rs, d)
    | none => findDefinition name rs

/-- what a document is read with on top of the given readings -/
def contextOver (helpers : Registry) (ancestors : List Reading) : Context where
  helpers := helpers
  tag? name := ancestors.findSome? (·.tags.lookup name)
  slots? name := ancestors.findSome? (·.parts.slotLists.reverse.lookup name)

/-- the own prefixes of a document on top of the given readings, then theirs -/
def prefixesOver (names : List String) : List Reading → List String
  | [] => names.map (· ++ "__")
  | r :: _ => (if names.isEmpty then [""] else names.map (· ++ "__")) ++ r.prefixes

/-- documents, the leaf's first, with their readings -/
inductive ReadsAll : List Document → List Reading → Prop
  | none : ReadsAll [] []
  | document {ds rs tags parts} {d : Document} :
    ReadsAll ds rs → Reads (contextOver d.options.helpers rs) none [] d.block.content tags parts →
      ReadsAll (d :: ds) (⟨prefixesOver d.blockNames rs, parts, tags⟩ :: rs)

theorem ReadsAll.unique {ds : List Document} {rs rs' : List Reading} (h : ReadsAll ds rs) (h' : ReadsAll ds rs') :
    rs = rs' := by
  induction h generalizing rs' with
  | none =>
    cases h'
    rfl
  | document _ hr ih =>
    cases h' with
    | document ha hr' =>
      cases ih ha
      obtain ⟨rfl, rfl⟩ := hr.unique hr'
      rfl

/-! ## Expansions -/

/-- the markup of parts that belong to the level `owner` starts with, in a chain of readings -/
inductive Expands (chain : List Reading) (prefixes : List String) : List Reading → Parts → String → Prop
  | done {owner} : Expands chain prefixes owner .done ""
  | text {owner ps s} (value : String) :
    Expands chain prefixes owner ps s → Expands chain prefixes owner (.text value ps) (escapeText value ++ s)
  | anonymous {owner o children ps content s} :
    Expands chain prefixes owner children content → Expands chain prefixes owner ps s →
      Expands chain prefixes owner (.anonymous o children ps)
        (o.opening prefixes ++ content ++ o.closing ++ s)
  /-- what stands where the name is written does not matter, only its definition in force -/
  | named {owner level name o children ps content s} {d : Definition} :
    findDefinition name chain = some (level, d) → Expands chain prefixes level d.children content →
      Expands chain prefixes owner ps s →
      Expands chain prefixes owner (.named name o children ps) (d.occurrence.around prefixes content ++ s)
  | superCall {owner level target ps content s} {d : Definition} :
    findDefinition target owner.tail = some (level, d) → Expands chain prefixes level d.children content →
      Expands chain prefixes owner ps s → Expands chain prefixes owner (.superCall target ps) (content ++ s)

theorem Expands.unique {chain owner : List Reading} {prefixes : List String} {ps : Parts} {s t : String}
    (h : Expands chain prefixes owner ps s) (h' : Expands chain prefixes owner ps t) : s = t := by
  induction h generalizing t with
  | done =>
    cases h'
    rfl
  | text value _ ih =>
    cases h' with
    | text _ h' => rw [ih h']
  | anonymous _ _ ihc ih =>
    cases h' with
    | anonymous hc' h' => rw [ihc hc', ih h']
  | named hd _ _ ihc ih =>
    cases h' with
    | named hd' hc' h' =>
      cases hd.symm.trans hd'
      rw [ihc hc', ih h']
  | superCall hd _ _ ihc ih =>
    cases h' with
    | superCall hd' hc' h' =>
      cases hd.symm.trans hd'
      rw [ihc hc', ih h']

/-- the markup of a chain of documents, the leaf's first: the content of the root, read at its level -/
def Expansion (ds : List Document) (text : String) : Prop :=
  ∃ leaf rs root, ReadsAll ds (leaf :: rs) ∧ (leaf :: rs).getLast? = some root ∧
    Expands (leaf :: rs) leaf.prefixes [root] root.parts text

/-- documents expand in one way only -/
theorem Expansion.unique {ds : List Document} {s t : String} (h : Expansion ds s) (h' : Expansion ds t) : s = t := by
  obtain ⟨leaf, rs, root, hreads, hlast, he⟩ := h
  obtain ⟨leaf', rs', root', hreads', hlast', he'⟩ := h'
  cases hreads.unique hreads'
  cases hlast.symm.trans hlast'
  exact he.unique he'

end BlockTemplates
