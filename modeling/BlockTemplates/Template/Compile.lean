/-
Compiling. A document is turned into one level of a chain: its named elements become bodies that are looked up by name
when a template is rendered, all other markup becomes literals. The walk over the tree carries the scope it writes to,
which is the top level or the content of a named element, and a record of what the level defines.

Helper elements are replaced by what their helper returns. Since a helper can return helper elements again, the depth of
replacement is limited: by the nesting of the document, which is enough for helpers that only pass on what they
received, and a fixed number of levels more. Everything else is recursion on the tree.
-/
import BlockTemplates.Helper
import BlockTemplates.Html.SelfClosing
import BlockTemplates.Template.Error
import BlockTemplates.Template.Event
import BlockTemplates.Template.Recursion

namespace BlockTemplates

open Html Markup Render

/-! ## The state of a walk -/

/-- what has been defined and reported so far, the latest first -/
structure Record where
  elements : List (String × Body) := []
  tagNames : List (String × String) := []
  attributeLists : List (String × AttributeSlots) := []
  events : List Event := []

/-- an error leaves the record as it was when it arose -/
abbrev Walk := ExceptT CompileError (StateM Record)

/-- what is fixed during a walk -/
structure Surroundings where
  /-- the chain of the template that is extended; empty for a root -/
  ancestors : List Level
  /-- whether class tokens can be written -/
  hasPrefixes : Bool
  helpers : Registry

/-- where operations are collected -/
structure Scope where
  /-- the innermost named element, absent at the top level -/
  name : Option String := none
  ops : Buffer := {}

def Scope.pushAll (s : Scope) (ops : List Op) : Scope := { s with ops := s.ops.pushAll ops }

def report (e : Event) : Walk Unit := modify fun r => { r with events := e :: r.events }

/-- keep the first tag that a name is given -/
def noteTag (name tag : String) : Walk Unit :=
  modify fun r => if (r.tagNames.lookup name).isSome then r else { r with tagNames := (name, tag) :: r.tagNames }

def noteSlots (name : String) (slots : AttributeSlots) : Walk Unit :=
  modify fun r => { r with attributeLists := (name, slots) :: r.attributeLists }

/-- the last definition of a name counts -/
def define (name : String) (body : Body) : Walk Unit := do
  if ((← get).elements.lookup name).isSome then report (.duplicateElement name)
  modify fun r => { r with elements := (name, body) :: r.elements }

/-! ## Attributes -/

/-- the tag of elements that neither have one nor inherit one -/
def defaultTag : String := "div"

/-- what a super call among attributes starts from: the slots in force for its target, or none -/
def inheritedSlots (ancestors : List Level) (call : Option SuperCall) (name : Option String) :
    Except CompileError AttributeSlots :=
  match call with
  | none => .ok {}
  | some call =>
    match call.elementName <|> name with
    | none => .error .anonymousAttributeSuper
    | some target =>
      if ancestors.isEmpty then .error (.superWithoutParent .attributes)
      else .ok ((findSlots target ancestors).getD {})

/-- the attributes of an element, inherited ones first -/
def resolveSlots (ancestors : List Level) (attributes : Attributes) (name : Option String) :
    Except CompileError AttributeSlots :=
  (inheritedSlots ancestors attributes.superCall name).map (·.setAll attributes.list)

/-- one attribute; in the class attribute the class tokens stand before the value -/
def slotOps (classNames : List String) (slot : String × Option String) : List Op :=
  let value := slot.2.getD ""
  if slot.1 = "class" ∧ classNames ≠ [] then
    [.literal (" " ++ slot.1 ++ "=\""), .elementClasses classNames,
     .literal ((if value = "" then "" else " ") ++ escapeAttribute value ++ "\"")]
  else [.literal (" " ++ slot.1 ++ "=\"" ++ escapeAttribute value ++ "\"")]

/-- all attributes; class tokens without a slot to stand in make up a class attribute of their own, before the others -/
def attributeOps (slots : AttributeSlots) (classNames : List String) : List Op :=
  (if classNames ≠ [] ∧ (slots.position? "class").isNone then
    [.literal " class=\"", .elementClasses classNames, .literal "\""] else []) ++
  slots.pairs.flatMap (slotOps classNames)

/-- an opening tag -/
def openingTag (env : Surroundings) (tag : String) (slots : AttributeSlots) (classNames : List String) :
    Except CompileError (List Op) :=
  if classNames ≠ [] ∧ ¬ env.hasPrefixes then .error .missingBlockName
  else .ok (.literal ("<" ++ tag) :: (attributeOps slots classNames ++ [.literal ">"]))

def closingTag (tag : String) : Op := .literal ("</" ++ tag ++ ">")

/-! ## Elements -/

/-- the tag of an element, or the helper's name: the one written, else the one its name has -/
def resolveTag (env : Surroundings) (e : Element) : Walk (Option String) := do
  match e.name, e.tagName with
  | none, tag => return tag
  | some name, some tag =>
    noteTag name tag
    return some tag
  | some name, none => return (← get).tagNames.lookup name <|> findTag name env.ancestors

/-- the slots of a named element, which are noted if it has any attributes -/
def namedSlots (env : Surroundings) (name : String) (attributes : Option Attributes) : Walk AttributeSlots := do
  match attributes with
  | none => return {}
  | some attributes =>
    if attributes.list.isEmpty && attributes.superCall.isNone then return {}
    else
      let slots ← MonadExcept.ofExcept (resolveSlots env.ancestors attributes (some name))
      noteSlots name slots
      return slots

/-- the operations around the content of a named element -/
def namedOps (env : Surroundings) (e : Element) (name : String) (tag : Option String) (slots : AttributeSlots) :
    Walk (List Op) := do
  if e.isHelper then return [.invokeContent name]
  else
    let tag := tag.getD defaultTag
    report (.namedElement name tag)
    let opening ← MonadExcept.ofExcept (openingTag env tag slots e.classNames)
    match e.content with
    | some (_ :: _) => return opening ++ [.invokeContent name, closingTag tag]
    | some [] => return opening ++ [closingTag tag]
    | none => return opening ++ (if isSelfClosing tag then [] else [closingTag tag])

/-- what the helper of a helper element returns -/
def expansion (env : Surroundings) (e : Element) (tag : Option String) : Walk (List Node) := do
  match tag with
  | none => throw .unresolvedHelperName
  | some name =>
    match env.helpers.find? name with
    | none => throw (.undefinedHelper name)
    | some helper =>
      report (.expandingHelper name)
      return (helper e).getD []

/-- an element with a name: its body is defined, and invoked where it stands -/
def namedElement (env : Surroundings) (e : Element) (name : String) (tag : Option String)
    (children : Scope → Walk Scope) (scope : Scope) : Walk Scope := do
  let slots ← namedSlots env name e.attributes
  let render ← namedOps env e name tag slots
  let inner ← children ⟨some name, {}⟩
  define name ⟨(Buffer.ofList render).toList, inner.ops.toList⟩
  return scope.pushAll [.invokeElement name]

/-- an element without a name: it is written where it stands -/
def anonymousElement (env : Surroundings) (e : Element) (tag : Option String) (children : Scope → Walk Scope)
    (scope : Scope) : Walk Scope := do
  if e.isHelper then children scope
  else
    let tag := tag.getD defaultTag
    let slots ← MonadExcept.ofExcept (resolveSlots env.ancestors (e.attributes.getD {}) none)
    let opening ← MonadExcept.ofExcept (openingTag env tag slots e.classNames)
    let scope ← children (scope.pushAll opening)
    return if e.content.isSome || !isSelfClosing tag then scope.pushAll [closingTag tag] else scope

/-- an element, given how its written content and how replacement nodes are compiled -/
def compileElement (env : Surroundings) (expand : Scope → List Node → Walk Scope) (e : Element)
    (content : Scope → Walk Scope) (scope : Scope) : Walk Scope := do
  let tag ← resolveTag env e
  let children (inner : Scope) : Walk Scope := do
    if e.isHelper then expand inner (← expansion env e tag) else content inner
  match e.name with
  | some name => namedElement env e name tag children scope
  | none => anonymousElement env e tag children scope

/-- a super call in content -/
def compileSuperCall (env : Surroundings) (call : SuperCall) (scope : Scope) : Walk Scope := do
  match call.elementName <|> scope.name with
  | none => throw .superOutsideElement
  | some target =>
    if env.ancestors.isEmpty then throw (.superWithoutParent .content)
    else if (findBody target env.ancestors).isNone then throw (.undefinedSuperTarget target)
    else return scope.pushAll [.superContent target]

/-! ## The walk -/

mutual

/-- add a node to a scope -/
def compileNode (env : Surroundings) (expand : Scope → List Node → Walk Scope) (scope : Scope) : Node → Walk Scope
  | .element ⟨helper, tag, names, attributes, none⟩ =>
    compileElement env expand ⟨helper, tag, names, attributes, none⟩ pure scope
  | .element ⟨helper, tag, names, attributes, some content⟩ =>
    compileElement env expand ⟨helper, tag, names, attributes, some content⟩
      (fun inner => compileNodes env expand inner content) scope
  | .text value => return scope.pushAll [.literal (escapeText value)]
  | .comment _ _ => return scope
  | .superCall call => compileSuperCall env call scope

/-- add nodes to a scope, in their order -/
def compileNodes (env : Surroundings) (expand : Scope → List Node → Walk Scope) (scope : Scope) :
    List Node → Walk Scope
  | [] => return scope
  | n :: ns => do compileNodes env expand (← compileNode env expand scope n) ns

end

/-- add nodes to a scope, with helpers expanded at most `depth` deep -/
def walk (env : Surroundings) : Nat → Scope → List Node → Walk Scope
  | 0, scope, nodes => compileNodes env (fun _ _ => throw .expansionTooDeep) scope nodes
  | depth + 1, scope, nodes => compileNodes env (walk env depth) scope nodes

/-! ## Compiling a document -/

structure Options where
  /-- in place of the block name that the document declares, unless empty -/
  blockNames : List String := []
  helpers : Registry := .builtins
  /-- how much deeper than the document is nested helpers may be expanded, which is needed where they return helper
  elements that are not part of what they received -/
  expansionLimit : Nat := 10000

/-- the outcome of compiling, and what was reported on the way -/
structure Compilation where
  result : Except CompileError Template
  events : List Event

/-- one prefix for each block name; an extension without block names has one empty prefix -/
def ownPrefixes (blockNames : List String) (ancestors : List Level) : List String :=
  if blockNames.isEmpty && !ancestors.isEmpty then [""] else blockNames.map (· ++ "__")

/-- the template that a walk amounts to; only a root keeps the top-level operations -/
def assemble (blockNames prefixes : List String) (ancestors : List Level) (top : Scope) (record : Record) :
    Template where
  leaf := {
    blockNames, prefixes
    root := if ancestors.isEmpty then top.ops.toList else []
    elements := record.elements
    tagNames := record.tagNames
    attributeLists := record.attributeLists }
  ancestors := ancestors

/-- the template itself, unless an element of it contains itself -/
def Template.check (t : Template) : Except CompileError Template :=
  match t.recursiveElement? with
  | some name => .error (.recursiveElement name)
  | none => .ok t

/-- compile a document, as a root or as an extension of `parent` -/
def compile (block : Block) (parent : Option Template) (options : Options) : Compilation :=
  let blockNames := if options.blockNames.isEmpty then block.name.toList else options.blockNames
  let ancestors := (parent.map Template.chain).getD []
  let prefixes := ownPrefixes blockNames ancestors ++ leafPrefixes ancestors
  let shownName := ",".intercalate blockNames
  let env : Surroundings := ⟨ancestors, !prefixes.isEmpty, options.helpers⟩
  let start : Record := { events := [.compiling shownName prefixes] }
  let depth := nodesHeight block.content + options.expansionLimit
  match (walk env depth {} block.content).run.run start with
  | (.error e, record) => ⟨.error e, record.events.reverse⟩
  | (.ok top, record) =>
    let ignored := !ancestors.isEmpty && !top.ops.onlyInvocations
    ⟨(assemble blockNames prefixes ancestors top record).check,
     record.events.reverse ++ (if ignored then [.topLevelIgnored shownName] else [])⟩

end BlockTemplates
