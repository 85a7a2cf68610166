/-
Documents without their texts and values. Two documents that differ in nothing but texts and the values of attributes
have the same blank form. A blank document reads as the blank form of what the document reads as, and the same is wrong
with both.

Main statements: `Reads.blank` and `ReadsAll.blank` (reading blank documents), `findDefinition_blank` (what is found in
their chain) and `verdict_blank` (what is wrong with them).
-/
import BlockTemplates.Proofs.Compiling.Verdict

namespace BlockTemplates

open Html Markup Render

/-! ## Blank trees -/

namespace Markup

def Attribute.blank (a : Attribute) : Attribute := { a with value := none }

def Attributes.blank (as : Attributes) : Attributes := { as with list := as.list.map Attribute.blank }

mutual

/-- the node without texts and values -/
def Node.blank : Node → Node
  | .element ⟨helper, tag, names, attributes, none⟩ =>
    .element ⟨helper, tag, names, attributes.map Attributes.blank, none⟩
  | .element ⟨helper, tag, names, attributes, some content⟩ =>
    .element ⟨helper, tag, names, attributes.map Attributes.blank, some (blankNodes content)⟩
  | .text _ => .text ""
  | .comment value multiline => .comment value multiline
  | .superCall call => .superCall call

def blankNodes : List Node → List Node
  | [] => []
  | n :: ns => n.blank :: blankNodes ns

end

def Element.blank (e : Element) : Element where
  isHelper := e.isHelper
  tagName := e.tagName
  names := e.names
  attributes := e.attributes.map Attributes.blank
  content := e.content.map blankNodes

theorem Node.blank_element (e : Element) : (Node.element e).blank = .element e.blank := by
  obtain ⟨helper, tag, names, attributes, content⟩ := e
  cases content with
  | none => simp only [Node.blank, Element.blank, Option.map_none]
  | some content => simp only [Node.blank, Element.blank, Option.map_some]

theorem blankNodes_getD (content : Option (List Node)) :
    (content.map blankNodes).getD [] = blankNodes (content.getD []) := by
  cases content with
  | none => simp only [Option.map_none, Option.getD_none, blankNodes]
  | some content => rfl

theorem Element.blank_content (e : Element) : e.blank.content.getD [] = blankNodes (e.content.getD []) :=
  blankNodes_getD e.content

theorem Element.blank_superCall (e : Element) :
    e.blank.attributes.bind (·.superCall) = e.attributes.bind (·.superCall) := by
  unfold Element.blank
  cases e.attributes with
  | none => rfl
  | some attributes => rfl

theorem nodesHeight_blank (ns : List Node) : nodesHeight (blankNodes ns) = nodesHeight ns := by
  induction ns using nodes_induction with
  | nil => simp only [blankNodes]
  | text value ns ih => simp only [blankNodes, Node.blank, nodesHeight, Node.height, ih]
  | comment value multiline ns ih => simp only [blankNodes, Node.blank, nodesHeight, ih]
  | superCall call ns ih => simp only [blankNodes, Node.blank, nodesHeight, ih]
  | element e ns ihc ih =>
    obtain ⟨helper, tag, names, attributes, content⟩ := e
    cases content with
    | none => simp only [blankNodes, Node.blank, nodesHeight, Node.height, ih]
    | some content =>
      rw [Option.getD_some] at ihc
      simp only [blankNodes, Node.blank, nodesHeight, Node.height, ihc, ih]

end Markup

/-- the document without texts and values, under the same settings -/
def Document.blank (d : Document) : Document where
  block := ⟨d.block.name, blankNodes d.block.content⟩
  options := d.options

/-! ## Blank readings -/

/-- the attributes without their values -/
def AttributeSlots.blank (s : AttributeSlots) : AttributeSlots := ⟨s.pairs.map fun p => (p.1, none)⟩

theorem AttributeSlots.names_blank (s : AttributeSlots) : s.blank.names = s.names := by
  simp [AttributeSlots.names, AttributeSlots.blank, Function.comp_def]

theorem AttributeSlots.blank_set (s : AttributeSlots) (name : String) (value : Option String) :
    (s.set name value).blank = s.blank.set name none := by
  obtain ⟨pairs⟩ := s
  simp only [AttributeSlots.set, AttributeSlots.blank, AttributeSlots.mk.injEq]
  induction pairs with
  | nil => rfl
  | cons p ps ih =>
    simp only [List.map_cons, AttributeSlots.setIn]
    split
    · rfl
    · rw [List.map_cons, ih]

theorem AttributeSlots.blank_setAll (s : AttributeSlots) (as : List Attribute) :
    (s.setAll as).blank = s.blank.setAll (as.map Attribute.blank) := by
  induction as generalizing s with
  | nil => rfl
  | cons a as ih =>
    change ((s.set a.name a.value).setAll as).blank = (s.blank.set a.name none).setAll (as.map Attribute.blank)
    rw [ih, AttributeSlots.blank_set]

def Occurrence.blank (o : Occurrence) : Occurrence where
  element := o.element.blank
  tag := o.tag
  slots := o.slots.map AttributeSlots.blank

def Parts.blank : Parts → Parts
  | .done => .done
  | .text _ rest => .text "" rest.blank
  | .anonymous o children rest => .anonymous o.blank children.blank rest.blank
  | .named name o children rest => .named name o.blank children.blank rest.blank
  | .superCall target rest => .superCall target rest.blank

def Definition.blank (d : Definition) : Definition := ⟨d.occurrence.blank, d.children.blank⟩

def Reading.blank (r : Reading) : Reading := { r with parts := r.parts.blank }

namespace Parts

theorem blank_append (ps qs : Parts) : (ps.append qs).blank = ps.blank.append qs.blank := by
  induction ps with
  | done => rfl
  | text value rest ih => simp only [append, blank, ih]
  | anonymous o children rest _ ih => simp only [append, blank, ih]
  | named name o children rest _ ih => simp only [append, blank, ih]
  | superCall target rest ih => simp only [append, blank, ih]

theorem definitions_blank (ps : Parts) : ps.blank.definitions = ps.definitions.map fun p => (p.1, p.2.blank) := by
  induction ps with
  | done => rfl
  | text value rest ih => exact ih
  | anonymous o children rest ihc ih => simp [blank, definitions, ihc, ih]
  | named name o children rest ihc ih => simp [blank, definitions, ihc, ih, Definition.blank]
  | superCall target rest ih => exact ih

theorem slotLists_blank (ps : Parts) : ps.blank.slotLists = ps.slotLists.map fun p => (p.1, p.2.blank) := by
  induction ps with
  | done => rfl
  | text value rest ih => exact ih
  | anonymous o children rest ihc ih => simp [blank, slotLists, ihc, ih]
  | named name o children rest ihc ih =>
    cases hs : o.slots with
    | none => simp [blank, slotLists, Occurrence.blank, ihc, ih, hs]
    | some slots => simp [blank, slotLists, Occurrence.blank, ihc, ih, hs]
  | superCall target rest ih => exact ih

end Parts

theorem Reading.definition?_blank (r : Reading) (name : String) :
    r.blank.definition? name = (r.definition? name).map Definition.blank := by
  unfold Reading.definition?
  change (r.parts.blank.definitions.reverse.lookup name) = _
  rw [Parts.definitions_blank, ← List.map_reverse]
  exact lookup_map_snd (fun _ => Definition.blank) name _

/-- what is found in blank readings is the blank form of what is found -/
theorem findDefinition_blank (name : String) (rs : List Reading) :
    findDefinition name (rs.map Reading.blank) =
      (findDefinition name rs).map fun p => (p.1.map Reading.blank, p.2.blank) := by
  induction rs with
  | nil => rfl
  | cons r rs ih =>
    simp only [List.map_cons, findDefinition, Reading.definition?_blank]
    cases r.definition? name with
    | none => exact ih
    | some d => rfl

theorem prefixesOver_blank (names : List String) (rs : List Reading) :
    prefixesOver names (rs.map Reading.blank) = prefixesOver names rs := by
  cases rs with
  | nil => rfl
  | cons r rs => rfl

/-! ## Reading blank documents -/

/-- helpers that do not look at texts and values: of a blank element, they make the blank form of what they make of the
element -/
def Registry.Blind (helpers : Registry) : Prop :=
  ∀ name helper, helpers.find? name = some helper → ∀ e, (helper e.blank).getD [] = blankNodes ((helper e).getD [])

theorem blind_sectionHelper (e : Element) : (sectionHelper e.blank).getD [] = blankNodes ((sectionHelper e).getD []) :=
  blankNodes_getD e.content

/-- what is read with, without values -/
def Context.blank (ctx : Context) : Context where
  helpers := ctx.helpers
  tag? := ctx.tag?
  slots? name := (ctx.slots? name).map AttributeSlots.blank

theorem contextOver_blank (helpers : Registry) (rs : List Reading) :
    contextOver helpers (rs.map Reading.blank) = (contextOver helpers rs).blank := by
  have hslots (r : Reading) (name : String) : r.blank.parts.slotLists.reverse.lookup name =
      (r.parts.slotLists.reverse.lookup name).map AttributeSlots.blank := by
    change r.parts.blank.slotLists.reverse.lookup name = _
    rw [Parts.slotLists_blank, ← List.map_reverse]
    exact lookup_map_snd (fun _ => AttributeSlots.blank) name _
  simp only [contextOver, Context.blank, List.findSome?_map, Context.mk.injEq, true_and]
  refine ⟨rfl, ?_⟩
  funext name
  rw [List.map_findSome?]
  simp only [Function.comp_def, hslots]

section

variable {ctx : Context}

theorem Context.slotsOf_blank (e : Element) : ctx.blank.slotsOf e.blank = (ctx.slotsOf e).map AttributeSlots.blank := by
  have hname : e.blank.name = e.name := rfl
  have hattributes : e.blank.attributes = e.attributes.map Attributes.blank := rfl
  unfold Context.slotsOf
  rw [hname, hattributes]
  cases e.attributes with
  | none => rfl
  | some attributes =>
    obtain ⟨_ | call, list⟩ := attributes
    · cases list with
      | nil => rfl
      | cons a as => exact congrArg some (AttributeSlots.blank_setAll {} (a :: as)).symm
    · simp only [Option.map_some, Attributes.blank, AttributeSlots.blank_setAll]
      cases call.elementName <|> e.name with
      | none => rfl
      | some target =>
        simp only [Option.bind_some, Context.blank]
        cases ctx.slots? target with
        | none => rfl
        | some slots => rfl

theorem Context.inner_blank (hblind : ctx.helpers.Blind) (e : Element) (tag : Option String) :
    ctx.blank.inner e.blank tag = (ctx.inner e tag).map blankNodes := by
  unfold Context.inner
  change (if e.isHelper then (tag.bind ctx.helpers.find?).map fun helper => (helper e.blank).getD []
    else some ((e.content.map blankNodes).getD [])) = _
  split
  · rw [Option.map_map]
    cases hfind : tag.bind ctx.helpers.find? with
    | none => rfl
    | some helper =>
      obtain ⟨name, -, hfind⟩ := Option.bind_eq_some_iff.1 hfind
      exact congrArg some (hblind name helper hfind e)
  · rw [blankNodes_getD]
    rfl

/-- a blank document reads as the blank form of what the document reads as -/
theorem Reads.blank (hblind : ctx.helpers.Blind) {within : Option String} {tags tags' : Tags} {nodes : List Node}
    {ps : Parts} (h : Reads ctx within tags nodes tags' ps) :
    Reads ctx.blank within tags (blankNodes nodes) tags' ps.blank := by
  induction h with
  | done =>
    simp only [blankNodes, Parts.blank]
    exact .done
  | text value _ ih =>
    simp only [blankNodes, Node.blank, Parts.blank]
    exact .text "" ih
  | comment value multiline _ ih =>
    simp only [blankNodes, Node.blank]
    exact .comment value multiline ih
  | superCall ht _ ih =>
    simp only [blankNodes, Node.blank, Parts.blank]
    exact .superCall ht ih
  | @named within tags nodes tags₁ tags₂ children ps e name inner hn hi _ _ ihc ih =>
    simp only [blankNodes, Node.blank_element, Parts.blank, Occurrence.blank, ← Context.slotsOf_blank]
    refine .named hn ?_ ihc ih
    change ctx.blank.inner e.blank (ctx.tagOf tags e) = _
    rw [Context.inner_blank hblind, hi]
    rfl
  | @anonymous within tags nodes tags₁ tags₂ children ps e hn hh _ _ ihc ih =>
    simp only [blankNodes, Node.blank_element, Parts.blank, Occurrence.blank, ← Context.slotsOf_blank]
    refine .anonymous hn hh ?_ ih
    rw [← blankNodes_getD] at ihc
    exact ihc
  | @spliced within tags nodes tags₁ tags₂ children ps e inner hn hh hi _ _ ihc ih =>
    simp only [blankNodes, Node.blank_element, Parts.blank_append]
    refine .spliced hn hh ?_ ihc ih
    change ctx.blank.inner e.blank e.tagName = _
    rw [Context.inner_blank hblind, hi]
    rfl

end

theorem ReadsAll.blank {ds : List Document} {rs : List Reading} (h : ReadsAll ds rs)
    (hblind : ∀ d ∈ ds, d.options.helpers.Blind) : ReadsAll (ds.map Document.blank) (rs.map Reading.blank) := by
  induction h with
  | none => exact .none
  | @document ds rs tags parts d _ hreads ih =>
    rw [List.forall_mem_cons] at hblind
    have hblank := hreads.blank hblind.1
    rw [← contextOver_blank] at hblank
    have hall : ReadsAll ((d :: ds).map Document.blank) _ := .document (ih hblind.2) hblank
    rw [prefixesOver_blank] at hall
    exact hall

/-! ## What is wrong with blank documents -/

/-- the differences between two surroundings make none to a verdict -/
structure Surroundings.Alike (env env' : Surroundings) : Prop where
  isEmpty : env'.ancestors.isEmpty = env.ancestors.isEmpty
  isNone : ∀ name, (findBody name env'.ancestors).isNone = (findBody name env.ancestors).isNone
  findTag : ∀ name, findTag name env'.ancestors = findTag name env.ancestors
  hasPrefixes : env'.hasPrefixes = env.hasPrefixes
  helpers : env'.helpers = env.helpers

namespace Surroundings.Alike

variable {env env' : Surroundings} (h : env.Alike env')
include h

theorem callFault? (within : Option String) (call : SuperCall) :
    env'.callFault? within call = env.callFault? within call := by
  simp only [Surroundings.callFault?, h.isEmpty, h.isNone]

theorem elementFault? (e : Element) (tag : Option String) : env'.elementFault? e.blank tag = env.elementFault? e tag := by
  have hattributes : env'.attributeFault? e.blank = env.attributeFault? e := by
    simp only [Surroundings.attributeFault?, e.blank_superCall, h.isEmpty]
    rfl
  have hclass : env'.classFault? e.blank = env.classFault? e := by
    simp only [Surroundings.classFault?, h.hasPrefixes]
    rfl
  have hhelper : env'.helperFault? tag = env.helperFault? tag := by
    simp only [Surroundings.helperFault?, h.helpers]
  simp only [Surroundings.elementFault?, hattributes, hclass, hhelper]
  rfl

theorem tagOf (tags : Tags) (e : Element) : env'.context.tagOf tags e.blank = env.context.tagOf tags e := by
  have htag : env'.context.tag? = env.context.tag? := funext h.findTag
  unfold Context.tagOf
  rw [htag]
  rfl

theorem inner (hblind : env.helpers.Blind) (e : Element) (tag : Option String) :
    env'.context.inner e.blank tag = (env.context.inner e tag).map blankNodes := by
  rw [← Context.inner_blank hblind]
  unfold Context.inner
  change (if e.blank.isHelper then (tag.bind env'.helpers.find?).map _ else _) = _
  rw [h.helpers]
  rfl

/-- the same is wrong with blank nodes as with the nodes -/
theorem judge (hblind : env.helpers.Blind) {depth : Nat} {within : Option String} {tags : Tags} {nodes : List Node} :
    judge env' depth within tags (blankNodes nodes) = judge env depth within tags nodes := by
  induction depth using Nat.strongRecOn generalizing within tags nodes with
  | ind depth ihd =>
    induction nodes using nodes_induction generalizing within tags with
    | nil => simp only [blankNodes, judge_nil]
    | text value ns ih => simp only [blankNodes, Node.blank, judge_text, ih]
    | comment value multiline ns ih => simp only [blankNodes, Node.blank, judge_comment, ih]
    | superCall call ns ih => simp only [blankNodes, Node.blank, judge_superCall, h.callFault?, ih]
    | element e ns ihc ih =>
      have hreplaced (within : Option String) (tags : Tags) (nodes : List Node) :
          judgeReplaced env' depth within tags (blankNodes nodes) = judgeReplaced env depth within tags nodes := by
        cases depth with
        | zero => rfl
        | succ depth => exact ihd depth (Nat.lt_succ_self depth)
      simp only [blankNodes, Node.blank_element, judge_element, h.tagOf, h.elementFault?, h.inner hblind, blankNodes_getD,
        hreplaced, e.blank_content, ihc, ih]
      rfl

end Surroundings.Alike

section

variable {rs : List Reading} {ls ls' : List Level} (h : Realised rs ls) (hblank : Realised (rs.map Reading.blank) ls')
include h hblank

/-- on levels that realise blank readings, a document stands as on the levels of the readings -/
theorem Realised.alike (d : Document) : (d.surroundings ls).Alike (d.blank.surroundings ls') where
  isEmpty := by
    cases h with
    | nil =>
      cases hblank
      rfl
    | cons _ _ =>
      cases hblank
      rfl
  isNone name := by
    have hfound := findDefinition_blank name rs
    rcases h.findBody name with ⟨hnone, hundefined⟩ | ⟨_, _, _, _, _, hsome, hdefined, -⟩
    · rw [hundefined] at hfound
      rcases hblank.findBody name with ⟨hnone', -⟩ | ⟨_, _, _, _, _, -, hdefined', -⟩
      · simp [Document.surroundings, hnone, hnone']
      · simp [hfound] at hdefined'
    · rw [hdefined] at hfound
      rcases hblank.findBody name with ⟨-, hundefined'⟩ | ⟨_, _, _, _, _, hsome', -⟩
      · simp [hfound] at hundefined'
      · simp [Document.surroundings, hsome, hsome']
  findTag name := by
    change BlockTemplates.findTag name ls' = BlockTemplates.findTag name ls
    rw [h.findTag, hblank.findTag, List.findSome?_map]
    rfl
  hasPrefixes := by
    simp only [Document.surroundings, h.prefixes, hblank.prefixes, prefixesOver_blank]
    rfl
  helpers := rfl

/-- the same is wrong with a blank document as with the document -/
theorem verdict_blank {d : Document} (hblind : d.options.helpers.Blind) : d.blank.verdict ls' = d.verdict ls := by
  unfold Document.verdict
  change judge _ (nodesHeight (blankNodes d.block.content) + d.options.expansionLimit) _ _ _ = _
  rw [nodesHeight_blank]
  exact (h.alike hblank d).judge hblind

end

end BlockTemplates
