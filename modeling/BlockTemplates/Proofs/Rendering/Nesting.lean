/-
Rendered markup is nested, whatever is overridden, inherited or returned by helpers. An element has one tag and one list
of attributes, with which it is opened and closed; where the names of tags and attributes are such as can be parsed, the
markup of every part is markup of the language, and so is what is put together from it.

Main statements: `Reads.sound` (what one document reads as), `Expands.nested` (what a chain expands to) and
`render_nested`.
-/
import BlockTemplates.Proofs.Layout.Parsed
import BlockTemplates.Proofs.Rendering.Expansion
import BlockTemplates.Proofs.Rendering.Language

namespace BlockTemplates

open Html Markup Render Source

/-! ## Names that can be parsed -/

/-- the tags and the attributes of nodes have names that can be parsed, at any depth -/
inductive Named : List Node → Prop
  | nil : Named []
  | text {value ns} : Named ns → Named (.text value :: ns)
  | comment {value multiline ns} : Named ns → Named (.comment value multiline :: ns)
  | superCall {call ns} : Named ns → Named (.superCall call :: ns)
  | element {e ns} : (∀ tag, e.tagName = some tag → IsName .tag tag) →
    (∀ attributes, e.attributes = some attributes → ∀ a ∈ attributes.list, IsName .attr a.name) →
    Named (e.content.getD []) → Named ns → Named (.element e :: ns)

section

variable {ns : List Node}

theorem named_text {value : String} : Named (.text value :: ns) ↔ Named ns := ⟨fun | .text h => h, .text⟩

theorem named_comment {value : String} {multiline : Bool} : Named (.comment value multiline :: ns) ↔ Named ns :=
  ⟨fun | .comment h => h, .comment⟩

theorem named_superCall {call : SuperCall} : Named (.superCall call :: ns) ↔ Named ns :=
  ⟨fun | .superCall h => h, .superCall⟩

theorem named_element {e : Element} : Named (.element e :: ns) ↔
    (∀ tag, e.tagName = some tag → IsName .tag tag) ∧
      (∀ attributes, e.attributes = some attributes → ∀ a ∈ attributes.list, IsName .attr a.name) ∧
      Named (e.content.getD []) ∧ Named ns :=
  ⟨fun | .element htag hattributes hcontent h => ⟨htag, hattributes, hcontent, h⟩,
    fun ⟨htag, hattributes, hcontent, h⟩ => .element htag hattributes hcontent h⟩

end

/-- what is parsed has such names -/
theorem named_of_wellFormed {inBraces : Bool} {ns : List Node} (h : WellFormed inBraces ns) : Named ns := by
  induction h with
  | nil => exact .nil
  | text _ ih => exact .text ih
  | line _ _ ih => exact .comment ih
  | block _ _ ih => exact .comment ih
  | superCall _ _ ih => exact .superCall ih
  | element hn _ _ _ ihcontent ih => exact .element hn.tag (fun a ha => (hn.attributes a ha).names) ihcontent ih

/-- helpers return nodes with such names if they are given an element with such names -/
def Registry.KeepsNames (helpers : Registry) : Prop :=
  ∀ name helper, helpers.find? name = some helper → ∀ e, Named [.element e] → Named ((helper e).getD [])

theorem keepsNames_builtins : Registry.builtins.KeepsNames := by
  intro name helper hfind e he
  simp only [Registry.builtins, Registry.find?, List.lookup_cons, List.lookup_nil] at hfind
  split at hfind
  · obtain rfl := Option.some.inj hfind
    cases he with
    | element _ _ hcontent _ => exact hcontent
  · contradiction

/-- the names that a document brings in -/
structure Document.Named (d : Document) : Prop where
  content : BlockTemplates.Named d.block.content
  helpers : d.options.helpers.KeepsNames

/-! ## Attributes -/

/-- no name is there twice, and all can be parsed -/
structure AttributeSlots.Sound (s : AttributeSlots) : Prop where
  distinct : s.names.Nodup
  names : ∀ name ∈ s.names, IsName .attr name

theorem AttributeSlots.sound_empty : AttributeSlots.Sound {} := ⟨.nil, by simp [AttributeSlots.names]⟩

theorem AttributeSlots.Sound.set {s : AttributeSlots} (hs : s.Sound) {name : String} (hn : IsName .attr name)
    (value : Option String) : (s.set name value).Sound := by
  by_cases hmem : name ∈ s.names
  · have hnames : (s.set name value).names = s.names := by rw [names_set, if_pos hmem]
    exact ⟨hnames ▸ hs.distinct, hnames ▸ hs.names⟩
  · have hnames : (s.set name value).names = s.names ++ [name] := by rw [names_set, if_neg hmem]
    refine ⟨?_, ?_⟩
    · rw [hnames, List.nodup_append]
      refine ⟨hs.distinct, by simp, ?_⟩
      rintro a ha b hb rfl
      exact hmem (List.mem_singleton.1 hb ▸ ha)
    · rw [hnames]
      intro n h
      rcases List.mem_append.1 h with h | h
      · exact hs.names n h
      · exact List.mem_singleton.1 h ▸ hn

theorem AttributeSlots.Sound.setAll {s : AttributeSlots} (hs : s.Sound) {as : List Attribute}
    (has : ∀ a ∈ as, IsName .attr a.name) : (s.setAll as).Sound := by
  induction as generalizing s with
  | nil => exact hs
  | cons a as ih =>
    rw [List.forall_mem_cons] at has
    exact ih (hs.set has.1 a.value) has.2

/-! ## Tags -/

theorem escaped_classTokens (prefixes names : List String) : Escaped .value (classTokens prefixes names).toList := by
  refine escaped_intercalate escaped_space fun token htoken => ?_
  obtain ⟨name, -, htoken⟩ := List.mem_flatMap.1 htoken
  obtain ⟨p, -, rfl⟩ := List.mem_map.1 htoken
  exact escaped_toList_append (escaped_escape _ p) (escaped_escape _ name)

theorem isName_class : IsName .attr "class" := .inl ⟨'c', "lass".toList, rfl, by decide, List.all_eq_true.1 (by decide)⟩

theorem isName_defaultTag : IsName .tag defaultTag :=
  .inl ⟨'d', "iv".toList, rfl, by decide, List.all_eq_true.1 (by decide)⟩

namespace Occurrence

/-- the value of an attribute as it is written -/
def slotValue (prefixes classNames : List String) (slot : String × Option String) : String :=
  (if slot.1 = "class" ∧ classNames ≠ [] then
    classTokens prefixes classNames ++ (if slot.2.getD "" = "" then "" else " ") else "") ++
  escapeAttribute (slot.2.getD "")

/-- all attributes as they are written -/
def attributes (prefixes classNames : List String) (slots : AttributeSlots) : List (String × String) :=
  (if classNames ≠ [] ∧ (slots.position? "class").isNone then [("class", classTokens prefixes classNames)] else []) ++
  slots.pairs.map fun slot => (slot.1, slotValue prefixes classNames slot)

theorem opening_eq (o : Occurrence) (prefixes : List String) :
    o.opening prefixes = openingText o.tagName (attributes prefixes o.element.classNames (o.slots.getD {})) := by
  have hslot (slot : String × Option String) : slotText prefixes o.element.classNames slot =
      " " ++ slot.1 ++ "=\"" ++ slotValue prefixes o.element.classNames slot ++ "\"" := by
    simp only [slotText, slotValue, String.append_assoc]
  unfold opening attributeText openingText attributes
  simp only [funext hslot]
  split
  · have hclass (s : String) : " class=\"" ++ s = " " ++ ("class" ++ ("=\"" ++ s)) := by
      rw [← String.append_assoc, ← String.append_assoc]
      rfl
    simp [hclass, Function.comp_def, String.append_assoc]
  · simp [Function.comp_def]

theorem escaped_slotValue (prefixes classNames : List String) (slot : String × Option String) :
    Escaped .value (slotValue prefixes classNames slot).toList := by
  unfold slotValue
  refine escaped_toList_append ?_ (escaped_escape _ _)
  split
  · refine escaped_toList_append (escaped_classTokens _ _) ?_
    split
    · exact escaped_nil _
    · exact escaped_space
  · exact escaped_nil _

theorem escaped_attributes (prefixes classNames : List String) (slots : AttributeSlots) :
    ∀ a ∈ attributes prefixes classNames slots, Escaped .value a.2.toList := by
  intro a ha
  unfold attributes at ha
  rcases List.mem_append.1 ha with ha | ha
  · split at ha
    · obtain rfl := List.mem_singleton.1 ha
      exact escaped_classTokens _ _
    · simp at ha
  · obtain ⟨slot, -, rfl⟩ := List.mem_map.1 ha
    exact escaped_slotValue _ _ _

theorem attributes_sound {slots : AttributeSlots} (h : slots.Sound) (prefixes classNames : List String) :
    AttributesSound (attributes prefixes classNames slots) := by
  have hmap :
      (slots.pairs.map fun slot => (slot.1, slotValue prefixes classNames slot)).map Prod.fst = slots.names := by
    simp [AttributeSlots.names, Function.comp_def]
  have hvalues := escaped_attributes prefixes classNames slots
  unfold attributes at hvalues ⊢
  split
  · rename_i hclass
    have hfresh : "class" ∉ slots.names := by
      intro hmem
      obtain ⟨slot, hslot, hname⟩ := List.mem_map.1 hmem
      have hnone := hclass.2
      rw [Option.isNone_iff_eq_none, AttributeSlots.position?, List.findIdx?_eq_none_iff] at hnone
      simpa [hname] using hnone slot hslot
    refine ⟨?_, ?_, by rwa [if_pos hclass] at hvalues⟩
    · simpa [hmap] using ⟨by simpa [AttributeSlots.names] using hfresh, h.distinct⟩
    · rw [List.singleton_append, List.map_cons, hmap, List.forall_mem_cons]
      exact ⟨isName_class, h.names⟩
  · rename_i hclass
    rw [if_neg hclass] at hvalues
    rw [List.nil_append] at hvalues ⊢
    exact ⟨hmap ▸ h.distinct, hmap ▸ h.names, hvalues⟩

end Occurrence

/-! ## What is read -/

/-- an element that can be written -/
structure Occurrence.Sound (o : Occurrence) : Prop where
  tag : IsName .tag o.tagName
  slots : (o.slots.getD {}).Sound

/-- parts whose elements can be written; what stands alone has no content -/
def Parts.Sound : Parts → Prop
  | .done => True
  | .text _ rest | .superCall _ rest => rest.Sound
  | .anonymous o children rest =>
    (o.Sound ∧ (o.element.content = none → children = .done)) ∧ children.Sound ∧ rest.Sound
  | .named _ o children rest => o.Sound ∧ children.Sound ∧ rest.Sound

theorem Parts.Sound.append {ps qs : Parts} (hp : ps.Sound) (hq : qs.Sound) : (ps.append qs).Sound := by
  induction ps with
  | done => exact hq
  | text value rest ih => exact ih hp
  | anonymous o children rest _ ih => exact ⟨hp.1, hp.2.1, ih hp.2.2⟩
  | named name o children rest _ ih => exact ⟨hp.1, hp.2.1, ih hp.2.2⟩
  | superCall target rest ih => exact ih hp

theorem Parts.Sound.definition {ps : Parts} (h : ps.Sound) {p : String × Definition} (hp : p ∈ ps.definitions) :
    p.2.occurrence.Sound ∧ p.2.children.Sound := by
  induction ps with
  | done => simp [definitions] at hp
  | text value rest ih => exact ih h hp
  | anonymous o children rest ihc ih =>
    rcases List.mem_append.1 hp with hp | hp
    · exact ihc h.2.1 hp
    · exact ih h.2.2 hp
  | named name o children rest ihc ih =>
    rcases List.mem_append.1 hp with hp | hp
    · exact ihc h.2.1 hp
    · rcases List.mem_cons.1 hp with rfl | hp
      · exact ⟨h.1, h.2.1⟩
      · exact ih h.2.2 hp
  | superCall target rest ih => exact ih h hp

theorem Parts.Sound.slotList {ps : Parts} (h : ps.Sound) {p : String × AttributeSlots} (hp : p ∈ ps.slotLists) :
    p.2.Sound := by
  induction ps with
  | done => simp [slotLists] at hp
  | text value rest ih => exact ih h hp
  | anonymous o children rest ihc ih =>
    rcases List.mem_append.1 hp with hp | hp
    · exact ihc h.2.1 hp
    · exact ih h.2.2 hp
  | named name o children rest ihc ih =>
    simp only [slotLists, List.mem_append, Option.mem_toList, Option.map_eq_some_iff] at hp
    rcases hp with ⟨slots, hslots, rfl⟩ | hp | hp
    · have hsound := h.1.slots
      rwa [hslots] at hsound
    · exact ihc h.2.1 hp
    · exact ih h.2.2 hp
  | superCall target rest ih => exact ih h hp

/-- the tags that names were given can be parsed -/
def Tags.Sound (tags : Tags) : Prop := ∀ name tag, tags.lookup name = some tag → IsName .tag tag

theorem Tags.Sound.after {tags : Tags} (h : tags.Sound) {e : Element}
    (he : ∀ tag, e.tagName = some tag → IsName .tag tag) : (tags.after e).Sound := by
  unfold Tags.after
  split
  · rename_i name tag _ htag
    unfold Tags.note
    split
    · exact h
    · intro n t hlookup
      rw [List.lookup_cons] at hlookup
      split at hlookup
      · exact Option.some.inj hlookup ▸ he tag htag
      · exact h n t hlookup
  · exact h

/-- what a document is read with can be written -/
structure Context.Sound (ctx : Context) : Prop where
  helpers : ctx.helpers.KeepsNames
  tag : ∀ name tag, ctx.tag? name = some tag → IsName .tag tag
  slots : ∀ name slots, ctx.slots? name = some slots → slots.Sound

section

variable {ctx : Context} (hctx : ctx.Sound)
include hctx

theorem Context.Sound.tagOf {tags : Tags} (htags : tags.Sound) {e : Element}
    (he : ∀ tag, e.tagName = some tag → IsName .tag tag) {tag : String} (h : ctx.tagOf tags e = some tag) :
    IsName .tag tag := by
  unfold Context.tagOf at h
  split at h
  · rename_i name _ _
    cases hlookup : tags.lookup name with
    | none =>
      rw [hlookup] at h
      exact hctx.tag name tag h
    | some tag' =>
      rw [hlookup] at h
      exact Option.some.inj h ▸ htags name tag' hlookup
  · exact he tag h

theorem Context.Sound.slotsOf {e : Element}
    (he : ∀ attributes, e.attributes = some attributes → ∀ a ∈ attributes.list, IsName .attr a.name) :
    ((ctx.slotsOf e).getD {}).Sound := by
  unfold Context.slotsOf
  split
  · exact AttributeSlots.sound_empty
  · exact AttributeSlots.sound_empty
  · rename_i list _ hattributes
    exact AttributeSlots.sound_empty.setAll (he _ hattributes)
  · rename_i call list hattributes
    refine AttributeSlots.Sound.setAll ?_ (he _ hattributes)
    cases hslots : (call.elementName <|> e.name).bind ctx.slots? with
    | none => exact AttributeSlots.sound_empty
    | some slots =>
      obtain ⟨target, -, hslots⟩ := Option.bind_eq_some_iff.1 hslots
      exact hctx.slots target slots hslots

theorem Context.Sound.inner {e : Element} {tag : Option String} {inner : List Node} (he : Named [.element e])
    (h : ctx.inner e tag = some inner) : Named inner := by
  unfold Context.inner at h
  split at h
  · obtain ⟨helper, hfind, rfl⟩ := Option.map_eq_some_iff.1 h
    obtain ⟨name, -, hfind⟩ := Option.bind_eq_some_iff.1 hfind
    exact hctx.helpers name helper hfind e he
  · obtain rfl := Option.some.inj h
    cases he with
    | element _ _ hcontent _ => exact hcontent

/-- nodes whose names can be parsed read as parts that can be written -/
theorem Reads.sound {within : Option String} {tags tags' : Tags} {nodes : List Node} {ps : Parts}
    (h : Reads ctx within tags nodes tags' ps) (htags : tags.Sound) (hn : Named nodes) : tags'.Sound ∧ ps.Sound := by
  induction h with
  | done => exact ⟨htags, trivial⟩
  | text value _ ih =>
    cases hn with
    | text hn => exact ih htags hn
  | comment value multiline _ ih =>
    cases hn with
    | comment hn => exact ih htags hn
  | superCall _ _ ih =>
    cases hn with
    | superCall hn => exact ih htags hn
  | @named within tags nodes tags₁ tags₂ children ps e name inner _ hi _ _ ihc ih =>
    cases hn with
    | element htag hattributes hcontent hn =>
      obtain ⟨hgiven, hchildren⟩ := ihc (htags.after htag) (hctx.inner (.element htag hattributes hcontent .nil) hi)
      obtain ⟨hgiven', hrest⟩ := ih hgiven hn
      refine ⟨hgiven', ⟨?_, hctx.slotsOf hattributes⟩, hchildren, hrest⟩
      unfold Occurrence.tagName
      cases htagOf : ctx.tagOf tags e with
      | none => exact isName_defaultTag
      | some tag => exact hctx.tagOf htags htag htagOf
  | @anonymous within tags nodes tags₁ tags₂ children ps e _ _ hc _ ihc ih =>
    cases hn with
    | element htag hattributes hcontent hn =>
      obtain ⟨hgiven, hchildren⟩ := ihc htags hcontent
      obtain ⟨hgiven', hrest⟩ := ih hgiven hn
      refine ⟨hgiven', ⟨⟨?_, hctx.slotsOf hattributes⟩, ?_⟩, hchildren, hrest⟩
      · unfold Occurrence.tagName
        cases ht : e.tagName with
        | none => exact isName_defaultTag
        | some tag => exact htag tag ht
      · intro hnone
        dsimp only at hnone
        rw [hnone] at hc
        cases hc
        rfl
  | spliced _ _ hi _ _ ihc ih =>
    cases hn with
    | element htag hattributes hcontent hn =>
      obtain ⟨hgiven, hchildren⟩ := ihc htags (hctx.inner (.element htag hattributes hcontent .nil) hi)
      obtain ⟨hgiven', hrest⟩ := ih hgiven hn
      exact ⟨hgiven', hchildren.append hrest⟩

end

/-! ## Chains -/

/-- a reading whose elements can be written -/
structure Reading.Sound (r : Reading) : Prop where
  parts : r.parts.Sound
  tags : r.tags.Sound
  tidy : ∀ p ∈ r.parts.definitions, p.2.Tidy

theorem contextOver_sound {helpers : Registry} (hh : helpers.KeepsNames) {rs : List Reading}
    (hrs : ∀ r ∈ rs, r.Sound) : (contextOver helpers rs).Sound where
  helpers := hh
  tag name tag h := by
    obtain ⟨r, hr, hlookup⟩ := List.exists_of_findSome?_eq_some h
    exact (hrs r hr).tags name tag hlookup
  slots name slots h := by
    obtain ⟨r, hr, hlookup⟩ := List.exists_of_findSome?_eq_some h
    obtain ⟨before, after, hlist, -⟩ := List.lookup_eq_some_iff.1 hlookup
    have hmem : (name, slots) ∈ r.parts.slotLists := by
      rw [← List.mem_reverse, hlist]
      simp
    exact (hrs r hr).parts.slotList hmem

theorem ReadsAll.sound {ds : List Document} {rs : List Reading} (h : ReadsAll ds rs) (hn : ∀ d ∈ ds, d.Named) :
    ∀ r ∈ rs, r.Sound := by
  induction h with
  | none => simp
  | document _ hreads ih =>
    rw [List.forall_mem_cons] at hn
    have hrs := ih hn.2
    have hempty : Tags.Sound [] := by simp [Tags.Sound]
    obtain ⟨htags, hparts⟩ := Reads.sound (contextOver_sound hn.1.helpers hrs) hreads hempty hn.1.content
    exact List.forall_mem_cons.2 ⟨⟨hparts, htags, hreads.tidy⟩, hrs⟩

/-- a definition in force can be written, and so can all that its level reads as -/
theorem sound_of_findDefinition {rs level : List Reading} (hrs : ∀ r ∈ rs, r.Sound) {name : String} {d : Definition}
    (h : findDefinition name rs = some (level, d)) :
    d.occurrence.Sound ∧ d.children.Sound ∧ d.Tidy ∧ ∀ r ∈ level, r.Sound := by
  induction rs with
  | nil => contradiction
  | cons r rs ih =>
    unfold findDefinition at h
    split at h
    · rename_i d' hd
      cases h
      have hmem := Reading.mem_of_definition? hd
      have hr := hrs r List.mem_cons_self
      obtain ⟨hoccurrence, hchildren⟩ := hr.parts.definition hmem
      exact ⟨hoccurrence, hchildren, hr.tidy _ hmem, hrs⟩
    · exact ih (fun r hr => hrs r (List.mem_cons_of_mem _ hr)) h

/-! ## Expansions -/

/-- tags around nested markup are nested, whether they stand alone or not -/
theorem Occurrence.nested {o : Occurrence} (ho : o.Sound) (prefixes : List String) {content : String}
    (hcontent : Nested content) (hlone : o.element.content = none → content = "") :
    Nested (o.opening prefixes ++ content ++ o.closing) := by
  have hattributes := attributes_sound ho.slots prefixes o.element.classNames
  rw [opening_eq]
  unfold closing
  split
  · have hclosed := Nested.element ho.tag hattributes hcontent .done
    rwa [String.append_empty] at hclosed
  · rename_i hopen
    simp only [Bool.or_eq_true, Bool.not_eq_true', not_or, Bool.not_eq_true, Bool.not_eq_false,
      Option.isSome_eq_false_iff, Option.isNone_iff_eq_none] at hopen
    rw [hlone hopen.1, String.append_empty]
    exact .lone hopen.2 ho.tag hattributes .done

theorem Expands.eq_empty {chain owner : List Reading} {prefixes : List String} {text : String}
    (h : Expands chain prefixes owner .done text) : text = "" := by
  cases h
  rfl

/-- what sound readings expand to is nested -/
theorem Expands.nested {chain owner : List Reading} {prefixes : List String} {ps : Parts} {text : String}
    (h : Expands chain prefixes owner ps text) (hchain : ∀ r ∈ chain, r.Sound) (howner : ∀ r ∈ owner, r.Sound)
    (hps : ps.Sound) : Nested text := by
  induction h with
  | done => exact .done
  | text value _ ih => exact .text (escaped_escape .text value) (ih howner hps)
  | @anonymous owner o children ps content s hcontent _ ihc ih =>
    obtain ⟨⟨ho, hlone⟩, hchildren, hrest⟩ := hps
    have hempty (hnone : o.element.content = none) : content = "" := by
      rw [hlone hnone] at hcontent
      exact hcontent.eq_empty
    exact (o.nested ho _ (ihc howner hchildren) hempty).append (ih howner hrest)
  | @named owner level name o children ps content s d hd hcontent _ ihc ih =>
    obtain ⟨hoccurrence, hchildren, htidy, hlevel⟩ := sound_of_findDefinition hchain hd
    refine Nested.append ?_ (ih howner hps.2.2)
    unfold Occurrence.around
    split
    · exact ihc hlevel hchildren
    · rename_i hh
      have hempty (hnone : d.occurrence.element.content = none) : content = "" := by
        rw [htidy (by simpa using hh) (by rw [hnone]; rfl)] at hcontent
        exact hcontent.eq_empty
      exact d.occurrence.nested hoccurrence _ (ihc hlevel hchildren) hempty
  | superCall hd _ _ ihc ih =>
    obtain ⟨-, hchildren, -, hlevel⟩ := sound_of_findDefinition (fun r hr => howner r (List.mem_of_mem_tail hr)) hd
    exact (ihc hlevel hchildren).append (ih howner hps)

/-- **Rendered markup is nested.** Where the names of tags and attributes can be parsed, as those of parsed blocks can,
a template is rendered to elements within elements, with escaped text and escaped values and no attribute twice. -/
theorem render_nested :
    (∀ source b, parse source = .ok b → Named b.content) ∧
      ∀ ds t, Compiled ds (some t) → (∀ d ∈ ds, d.Named) → ∃ text, t.render = .ok text ∧ Nested text := by
  refine ⟨fun source b h => named_of_wellFormed (readDocument_wellFormed (parse_eq_ok.1 h)).content, ?_⟩
  intro ds t h hn
  obtain ⟨rs, hreads, hleaf⟩ := compiled_reads h
  obtain ⟨text, htext⟩ :=
    Template.render_of_check hleaf.wellBound (Realised.fits_start hleaf) (recursiveElement?_of_compiled h)
  obtain ⟨leaf, rs', root, hreads', hroot, hexpands⟩ := expansion_of_render h htext
  have hrs := hreads'.sound hn
  have hr : root.Sound := hrs root (List.mem_of_getLast? hroot)
  exact ⟨text, htext, hexpands.nested hrs (by simpa using hr) hr.parts⟩

/-- an image in a named element -/
def figure : Document where
  block := ⟨some "b", [.element ⟨false, some "p", some [some "figure"], some ⟨none, [⟨"title", some "a"⟩]⟩,
    some [.element ⟨false, some "img", none, some ⟨none, [⟨"alt", some "\"<\""⟩]⟩, none⟩]⟩]⟩

/-- another title and a caption -/
def figureAgain : Document where
  block := ⟨some "c", [.element ⟨false, none, some [some "figure"], some ⟨some {}, [⟨"title", some "b"⟩]⟩,
    some [.superCall {}, .text "1 < 2"]⟩]⟩

theorem isName_title : IsName .attr "title" := .inl ⟨'t', "itle".toList, rfl, by decide, List.all_eq_true.1 (by decide)⟩

theorem figure_named : figure.Named := by
  have himg : IsName .tag "img" := .inl ⟨'i', "mg".toList, rfl, by decide, List.all_eq_true.1 (by decide)⟩
  have hp : IsName .tag "p" := .inl ⟨'p', [], rfl, by decide, by simp⟩
  have halt : IsName .attr "alt" := .inl ⟨'a', "lt".toList, rfl, by decide, List.all_eq_true.1 (by decide)⟩
  refine ⟨.element ?_ ?_ (.element ?_ ?_ .nil .nil) .nil, keepsNames_builtins⟩
  · simpa using hp
  · simpa using isName_title
  · simpa using himg
  · simpa using halt

theorem figureAgain_named : figureAgain.Named := by
  refine ⟨.element (by simp) ?_ (.superCall (.text .nil)) .nil, keepsNames_builtins⟩
  simpa using isName_title

theorem figureAgain_nested :
    ∃ t, Compiled [figureAgain, figure] (some t) ∧ (∀ d ∈ [figureAgain, figure], d.Named) ∧
      t.render = .ok ("<p class=\"c__figure b__figure\" title=\"b\"><img alt=\"&quot;&lt;&quot;\">" ++
        "1 &lt; 2</p>") ∧
      Nested ("<p class=\"c__figure b__figure\" title=\"b\"><img alt=\"&quot;&lt;&quot;\">" ++ "1 &lt; 2</p>") := by
  obtain ⟨base, hbase⟩ : ∃ base, (compile figure.block none figure.options).result = .ok base := ⟨_, rfl⟩
  obtain ⟨t, ht, hrender⟩ : ∃ t, (compile figureAgain.block (some base) figureAgain.options).result = .ok t ∧
      t.render = .ok ("<p class=\"c__figure b__figure\" title=\"b\"><img alt=\"&quot;&lt;&quot;\">" ++
        "1 &lt; 2</p>") := by
    cases hbase
    exact ⟨_, rfl, rfl⟩
  have hcompiled : Compiled [figureAgain, figure] (some t) := .document _ (.document _ .none hbase) ht
  have hnamed : ∀ d ∈ [figureAgain, figure], d.Named := by simpa using ⟨figureAgain_named, figure_named⟩
  obtain ⟨text, htext, hnested⟩ := render_nested.2 _ _ hcompiled hnamed
  cases hrender.symm.trans htext
  exact ⟨t, hcompiled, hnamed, hrender, hnested⟩

end BlockTemplates
