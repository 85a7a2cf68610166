/-
Overriding an element by itself. An element that a document writes with nothing but super calls has the tag, the
attributes and the content of the element that it overrides, so that the document changes nothing but what its block
name changes.

Main statements: `compile_of_expansion` (a document that expands compiles, and is rendered to its expansion) and
`override_by_itself`.
-/
import BlockTemplates.Proofs.Reading.Failures
import BlockTemplates.Proofs.Reading.Inheritance
import BlockTemplates.Proofs.Rendering.Expansion

namespace BlockTemplates

open Html Markup Render

/-! ## What expands is written -/

section

variable {leaf owner : List Level} {text : String}

theorem writes_openingOps (o : Occurrence) : Writes leaf owner o.openingOps (o.opening (leafPrefixes leaf)) :=
  writes_iff_run.2 ⟨0, run_openingOps o⟩

theorem writes_closingOps (o : Occurrence) : Writes leaf owner o.closingOps o.closing :=
  writes_iff_run.2 ⟨0, run_closingOps o⟩

/-- the tags of an element are written around its content -/
theorem writes_renderOps {o : Occurrence} {name content : String}
    (hcontent : Writes leaf owner [.invokeContent name] content)
    (hempty : o.element.isHelper = false → o.element.content.getD [] = [] → content = "") :
    Writes leaf owner (o.renderOps name) (o.around (leafPrefixes leaf) content) := by
  unfold Occurrence.renderOps Occurrence.around
  split
  · exact hcontent
  · rename_i hh
    refine writes_append (writes_append (writes_openingOps o) ?_) (writes_closingOps o)
    split
    · rename_i hnone
      rw [hempty (by simpa using hh) (List.isEmpty_iff.1 hnone)]
      exact .done
    · exact hcontent

end

section

variable {ds : List Document} {rs : List Reading} {leaf : List Level} (hreads : ReadsAll ds rs)
  (hleaf : Realised rs leaf)
include hreads hleaf

/-- the operations of parts write what the parts expand to -/
theorem writes_of_expands {rs' : List Reading} {ps : Parts} {text : String}
    (h : Expands rs (leafPrefixes leaf) rs' ps text) {owner : List Level} (howner : Realised rs' owner) :
    Writes leaf owner ps.ops text := by
  induction h generalizing owner with
  | done => exact .done
  | text value _ ih => exact .literal _ (ih howner)
  | anonymous _ _ ihc ih =>
    exact writes_append (writes_append (writes_append (writes_openingOps _) (ihc howner)) (writes_closingOps _))
      (ih howner)
  | @named _ level name _ _ _ content _ d hd hcontent _ ihc ih =>
    rcases hleaf.findBody name with ⟨-, hnone⟩ | ⟨r, rs'', l, ls, d', hbody, hd', -, hl, hls⟩
    · rw [hd] at hnone
      contradiction
    · cases hd.symm.trans hd'
      have htags : target? leaf owner (.invokeElement name) = some (l :: ls, (d.body name).render) := by
        simp [target?, hbody]
      have hcontents : target? leaf (l :: ls) (.invokeContent name) = some (l :: ls, (d.body name).content) := by
        simp [target?, hbody]
      have hinvoked : Writes leaf (l :: ls) [.invokeContent name] (content ++ "") :=
        .invoke hcontents (writes_ofList.2 (ihc (.cons hl hls))) .done
      rw [String.append_empty] at hinvoked
      refine .invoke htags (writes_ofList.2 (writes_renderOps hinvoked fun hh he => ?_)) (ih howner)
      rw [hreads.tidy hd hh he] at hcontent
      cases hcontent
      rfl
  | @superCall _ level target _ _ _ d hd _ _ ihc ih =>
    rcases howner.tail.findBody target with ⟨-, hnone⟩ | ⟨r, rs'', l, ls, d', hbody, hd', -, hl, hls⟩
    · rw [hd] at hnone
      contradiction
    · cases hd.symm.trans hd'
      have hcontents : target? leaf owner (.superContent target) = some (l :: ls, (d.body target).content) := by
        simp [target?, hbody]
      exact .invoke hcontents (writes_ofList.2 (ihc (.cons hl hls))) (ih howner)

end

/-- a document that expands passes the check, and is rendered to what it expands to -/
theorem compile_of_expansion {ds : List Document} {parent : Option Template} (h : Compiled ds parent) {d : Document}
    {t : Template} (hd : draft d parent = .ok t) {text : String} (he : Expansion (d :: ds) text) :
    (compile d.block parent d.options).result = .ok t ∧ t.render = .ok text := by
  obtain ⟨rs, hreads, hleaf⟩ := draft_reads h hd
  obtain ⟨leaf, rs', root, hreads', hroot, hexpands⟩ := he
  cases hreads.unique hreads'
  have hwrites : Writes t.chain t.start.1 t.start.2 text := by
    rcases hleaf.getLast? with ⟨hnone, -⟩ | ⟨root', l, hroot', hl, hr⟩
    · rw [hroot] at hnone
      contradiction
    · cases hroot.symm.trans hroot'
      obtain ⟨howner, hops⟩ := t.rootOwner_eq hl
      have hprefixes : leaf.prefixes = leafPrefixes t.chain := by
        cases hleaf with
        | cons hfirst _ => exact hfirst.prefixes.symm
      rw [hprefixes] at hexpands
      simp only [Template.start, howner, hops, hr.root]
      exact writes_ofList.2 (writes_of_expands hreads hleaf hexpands (.cons hr .nil))
  obtain ⟨hcheck, hrender⟩ := Template.render_of_writes hleaf.wellBound (Realised.fits_start hleaf) hwrites
  exact ⟨compile_eq_ok.2 ⟨hd, hcheck⟩, hrender⟩

/-! ## The element by itself -/

/-- the element of a name with nothing but the attributes and the content that it inherits -/
def byItself (name : String) : Element where
  isHelper := false
  tagName := none
  names := some [some name]
  attributes := some { superCall := some {} }
  content := some [.superCall {}]

/-- the element as it is read on top of a chain -/
def byItselfRead (helpers : Registry) (rs : List Reading) (name : String) : Occurrence where
  element := byItself name
  tag := (contextOver helpers rs).tagOf [] (byItself name)
  slots := (contextOver helpers rs).slotsOf (byItself name)

/-- a document with the element alone, as it reads -/
def byItselfReading (helpers : Registry) (rs : List Reading) (name : String) (blockNames : List String) : Reading where
  prefixes := prefixesOver blockNames rs
  parts := .named name (byItselfRead helpers rs name) (.superCall name .done) .done
  tags := []

/-- a document with nothing in it, as it reads -/
def emptyReading (rs : List Reading) (blockNames : List String) : Reading where
  prefixes := prefixesOver blockNames rs
  parts := .done
  tags := []

/-- a definition in force that decides alone about its name: the only one in its level, no helper, with no other name,
with a closing tag, and with attributes if any level of the chain has some for the name -/
structure DecidesAlone (rs : List Reading) (name : String) (r : Reading) (rs' : List Reading) (d : Definition) :
    Prop where
  found : findDefinition name rs = some (r :: rs', d)
  once : r.parts.definitions.countP (·.1 = name) = 1
  markup : d.occurrence.element.isHelper = false
  names : d.occurrence.element.allNames = [name]
  closed : d.occurrence.element.content = none → isSelfClosing d.occurrence.tagName = false
  attributes : d.occurrence.element.HasAttributes ∨
    ∀ r ∈ rs, ∀ o, (some name, o) ∈ r.parts.occurrences → ¬ o.element.HasAttributes

/-- it stands in the same tags as the definition that it overrides -/
theorem around_byItself {ds : List Document} {rs rs' : List Reading} {r : Reading} {name : String} {d : Definition}
    (hrs : ReadsAll ds rs) (hd : DecidesAlone rs name r rs' d) (helpers : Registry) (prefixes : List String)
    (content : String) :
    (byItselfRead helpers rs name).around prefixes content = d.occurrence.around prefixes content := by
  have htag : (byItselfRead helpers rs name).tagName = d.occurrence.tagName := by
    have htagOf : (contextOver helpers rs).tagOf [] (byItself name) = rs.findSome? (·.tags.lookup name) :=
      Context.tagOf_of_name rfl rfl
    unfold Occurrence.tagName byItselfRead
    rw [htagOf, tag_of_findDefinition hrs hd.found hd.once]
  have hslots : (byItselfRead helpers rs name).slots.getD {} = d.occurrence.slots.getD {} := by
    have hslotsOf : (contextOver helpers rs).slotsOf (byItself name) = some ((inheritedFrom name rs).setAll []) :=
      slotsOf_superCall rfl rfl
    unfold byItselfRead
    rw [hslotsOf, inheritedFrom_of_once hrs hd.found hd.once hd.attributes]
    rfl
  have hclass : (byItselfRead helpers rs name).element.classNames = d.occurrence.element.classNames := by
    unfold Element.classNames
    rw [hd.names]
    rfl
  have hopening : (byItselfRead helpers rs name).opening prefixes = d.occurrence.opening prefixes := by
    unfold Occurrence.opening
    rw [htag, hslots, hclass]
  have hclosing : (byItselfRead helpers rs name).closing = d.occurrence.closing := by
    have hend : (d.occurrence.element.content.isSome || !isSelfClosing d.occurrence.tagName) = true := by
      cases hcontent : d.occurrence.element.content with
      | none => simp [hd.closed hcontent]
      | some nodes => rfl
    unfold Occurrence.closing
    rw [if_pos hend, htag]
    rfl
  have hmarkup : (byItselfRead helpers rs name).element.isHelper = false := rfl
  unfold Occurrence.around
  simp only [hmarkup, hd.markup, Bool.false_eq_true, if_false, hopening, hclosing]

/-- what expands in a chain expands under both documents, to the same text under either -/
theorem Expands.extend {ds : List Document} {rs rs' : List Reading} {r : Reading} {name : String} {d : Definition}
    (hrs : ReadsAll ds rs) (hd : DecidesAlone rs name r rs' d) (helpers : Registry) (blockNames : List String)
    {prefixes : List String} {owner : List Reading} {ps : Parts} {text : String}
    (h : Expands rs prefixes owner ps text) :
    ∃ text', Expands (byItselfReading helpers rs name blockNames :: rs) (prefixesOver blockNames rs) owner ps text' ∧
      Expands (emptyReading rs blockNames :: rs) (prefixesOver blockNames rs) owner ps text' := by
  have hempty (n : String) : findDefinition n (emptyReading rs blockNames :: rs) = findDefinition n rs := rfl
  have hself : findDefinition name (byItselfReading helpers rs name blockNames :: rs) =
      some (byItselfReading helpers rs name blockNames :: rs,
        ⟨byItselfRead helpers rs name, .superCall name .done⟩) := by
    simp [findDefinition, Reading.definition?, byItselfReading, Parts.definitions]
  have hother {n : String} (hn : n ≠ name) :
      findDefinition n (byItselfReading helpers rs name blockNames :: rs) = findDefinition n rs := by
    simp [findDefinition, Reading.definition?, byItselfReading, Parts.definitions, List.lookup_cons,
      beq_eq_false_iff_ne.2 hn]
  induction h with
  | done => exact ⟨"", .done, .done⟩
  | text value _ ih =>
    obtain ⟨s, h, h'⟩ := ih
    exact ⟨_, .text value h, .text value h'⟩
  | anonymous _ _ ihc ih =>
    obtain ⟨content, hc, hc'⟩ := ihc
    obtain ⟨s, h, h'⟩ := ih
    exact ⟨_, .anonymous hc h, .anonymous hc' h'⟩
  | @named _ level n _ _ _ _ _ d' hd' _ _ ihc ih =>
    obtain ⟨content, hc, hc'⟩ := ihc
    obtain ⟨s, h, h'⟩ := ih
    refine ⟨_, ?_, .named ((hempty n).trans hd') hc' h'⟩
    by_cases hn : n = name
    · -- the override is looked up, and its super call leads on to the definition that it overrides
      subst hn
      cases hd.found.symm.trans hd'
      have hcontent : Expands (byItselfReading helpers rs n blockNames :: rs) (prefixesOver blockNames rs)
          (byItselfReading helpers rs n blockNames :: rs) (.superCall n .done) (content ++ "") :=
        .superCall hd.found hc .done
      rw [String.append_empty] at hcontent
      rw [← around_byItself hrs hd helpers]
      exact .named hself hcontent h
    · exact .named ((hother hn).trans hd') hc h
  | superCall hd' _ _ ihc ih =>
    obtain ⟨content, hc, hc'⟩ := ihc
    obtain ⟨s, h, h'⟩ := ih
    exact ⟨_, .superCall hd' hc h, .superCall hd' hc' h'⟩

/-! ## Drafts -/

/-- a walk that cannot fail makes a draft -/
theorem draft_of_raises {d : Document} {parent : Option Template}
    (h : Raises (fun _ => False) (d.walk (levelsOf parent))) : ∃ t, draft d parent = .ok t := by
  unfold draft
  dsimp only
  split
  · rename_i e record hw
    exact (h hw).elim
  · exact ⟨_, rfl⟩

theorem isEmpty_of_findBody {name : String} {ls : List Level} (h : (findBody name ls).isSome) : ls.isEmpty = false := by
  cases ls with
  | nil => simp [findBody] at h
  | cons l ls => rfl

/-- an extension has a prefix, be it an empty one -/
theorem hasPrefixes_of_ancestors (d : Document) {ancestors : List Level} (h : ancestors ≠ []) :
    (d.surroundings ancestors).hasPrefixes = true := by
  have hprefixes : ownPrefixes d.blockNames ancestors ≠ [] := by
    unfold ownPrefixes
    cases hnames : d.blockNames with
    | nil => simp [h]
    | cons name names => simp
  simp [Document.surroundings, hprefixes]

section

variable {P : CompileError → Prop} {env : Surroundings} {name : String}

theorem raises_superContent {call : SuperCall} {scope : Scope} (hcall : (call.elementName <|> scope.name) = some name)
    (hname : (findBody name env.ancestors).isSome) : Raises P (compileSuperCall env call scope) := by
  have hancestors := isEmpty_of_findBody hname
  have hfound : (findBody name env.ancestors).isNone = false := by simpa using hname
  unfold compileSuperCall
  simp only [hcall, hancestors, hfound, Bool.false_eq_true, if_false]
  exact .pure _

theorem raises_byItself (hname : (findBody name env.ancestors).isSome) (hprefixes : env.hasPrefixes = true)
    (expand : Scope → List Node → Walk Scope) (scope : Scope) :
    Raises P (compileNode env expand scope (.element (byItself name))) := by
  have hancestors := isEmpty_of_findBody hname
  have hslots : Raises P (namedSlots env name (byItself name).attributes) := by
    refine .bind (.ofExcept fun e he => ?_) fun _ => .bind (.modify _) fun _ => .pure _
    simp [resolveSlots, inheritedSlots, hancestors, Except.map] at he
  have hops (tag : Option String) (slots : AttributeSlots) :
      Raises P (namedOps env (byItself name) name tag slots) := by
    refine .bind (.modify _) fun _ => .bind (.ofExcept fun e he => ?_) fun _ => .pure _
    simp [openingTag, hprefixes] at he
  have hcall : Raises P (compileSuperCall env {} ⟨some name, {}⟩) := raises_superContent rfl hname
  have hcontent : Raises P (compileNodes env expand ⟨some name, {}⟩ [.superCall {}]) := .bind hcall fun _ => .pure _
  rw [compileNode_element, compileElement_eq]
  exact .bind raises_resolveTag fun tag => .bind hslots fun slots => .bind (hops tag slots) fun _ =>
    .bind hcontent fun _ => .bind raises_define fun _ => .pure _

end

/-- a document with nothing in it -/
def emptyDocument (blockName : String) (options : Options) : Document where
  block := ⟨some blockName, []⟩
  options := options

/-- a document with the element of a name by itself -/
def byItselfDocument (name blockName : String) (options : Options) : Document where
  block := ⟨some blockName, [.element (byItself name)]⟩
  options := options

theorem walk_cases {Q : Walk Scope → Prop} {env : Surroundings} {scope : Scope} {nodes : List Node}
    (h : ∀ expand, Q (compileNodes env expand scope nodes)) (depth : Nat) : Q (walk env depth scope nodes) := by
  cases depth with
  | zero => exact h _
  | succ depth => exact h _

theorem exists_draft_emptyDocument (blockName : String) (options : Options) (parent : Option Template) :
    ∃ t, draft (emptyDocument blockName options) parent = .ok t :=
  draft_of_raises (walk_cases (fun _ => .pure _) _)

theorem exists_draft_byItselfDocument {t : Template} {name : String} (h : (findBody name t.chain).isSome)
    (blockName : String) (options : Options) :
    ∃ t', draft (byItselfDocument name blockName options) (some t) = .ok t' := by
  have hchain : t.chain ≠ [] := by simp [Template.chain]
  have hprefixes := hasPrefixes_of_ancestors (byItselfDocument name blockName options) hchain
  exact draft_of_raises (walk_cases (fun expand => .bind (raises_byItself h hprefixes expand _) fun _ => .pure _) _)

/-! ## Overriding -/

/-- **Overriding an element by itself changes nothing.** Where a definition decides alone about its name, a document
that overrides the element by its own attributes and its own content compiles, and is rendered to the same text as a
document of the same block name with no content. -/
theorem override_by_itself {ds : List Document} {t : Template} {rs rs' : List Reading} {name : String} {r : Reading}
    {d : Definition} (h : Compiled ds (some t)) (hrs : ReadsAll ds rs) (hd : DecidesAlone rs name r rs' d)
    (blockName : String) (options : Options) :
    ∃ t₁ t₂ text,
      (compile ⟨some blockName, [.element (byItself name)]⟩ (some t) options).result = .ok t₁ ∧
      (compile ⟨some blockName, []⟩ (some t) options).result = .ok t₂ ∧
      t₁.render = .ok text ∧ t₂.render = .ok text := by
  obtain ⟨rs₁, hrs₁, hleaf⟩ := compiled_reads h
  cases hrs.unique hrs₁
  change Realised rs t.chain at hleaf
  have hbody : (findBody name t.chain).isSome := by
    rcases hleaf.findBody name with ⟨-, hnone⟩ | ⟨_, _, _, _, _, hsome, -⟩
    · rw [hd.found] at hnone
      contradiction
    · simp [hsome]
  obtain ⟨t₁, ht₁⟩ := exists_draft_byItselfDocument hbody blockName options
  obtain ⟨t₂, ht₂⟩ := exists_draft_emptyDocument blockName options (some t)
  obtain ⟨text, htext⟩ :=
    Template.render_of_check hleaf.wellBound (Realised.fits_start hleaf) (recursiveElement?_of_compiled h)
  obtain ⟨leaf, rs₂, root, hreads, hroot, hexpands⟩ := expansion_of_render h htext
  cases hrs.unique hreads
  obtain ⟨text', hself, hempty⟩ := hexpands.extend hrs hd options.helpers
    (byItselfDocument name blockName options).blockNames
  have hroot' (top : Reading) : (top :: leaf :: rs₂).getLast? = some root := by rw [List.getLast?_cons_cons, hroot]
  obtain ⟨hcompile₁, hrender₁⟩ := compile_of_expansion h ht₁
    ⟨_, _, root, .document hrs (.named rfl rfl (.superCall rfl .done) .done), hroot' _, hself⟩
  obtain ⟨hcompile₂, hrender₂⟩ := compile_of_expansion h ht₂ ⟨_, _, root, .document hrs .done, hroot' _, hempty⟩
  exact ⟨t₁, t₂, text', hcompile₁, hcompile₂, hrender₁, hrender₂⟩

/-- a paragraph with a title -/
def letter : Document where
  block := ⟨some "b", [.element ⟨false, some "p", some [some "letter"], some ⟨none, [⟨"title", some "a"⟩]⟩,
    some [.text "hello"]⟩]⟩

/-- the same with another attribute and more content -/
def signed : Document where
  block := ⟨some "c", [.element ⟨false, none, some [some "letter"], some ⟨some {}, [⟨"id", some "1"⟩]⟩,
    some [.superCall {}, .text ", me"]⟩]⟩

theorem signed_decidesAlone : ∃ rs r rs' d, ReadsAll [signed, letter] rs ∧ DecidesAlone rs "letter" r rs' d :=
  ⟨_, _, _, _, .document (.document .none (.named rfl rfl (.text "hello" .done) .done))
    (.named rfl rfl (.superCall rfl (.text ", me" .done)) .done),
    rfl, rfl, rfl, rfl, nofun, .inl ⟨_, rfl, .inr nofun⟩⟩

theorem signed_by_itself :
    ∃ t t₁ t₂, Compiled [signed, letter] (some t) ∧
      (compile ⟨some "d", [.element (byItself "letter")]⟩ (some t) {}).result = .ok t₁ ∧
      (compile ⟨some "d", []⟩ (some t) {}).result = .ok t₂ ∧
      t₁.render = .ok "<p class=\"d__letter c__letter b__letter\" title=\"a\" id=\"1\">hello, me</p>" ∧
      t₂.render = .ok "<p class=\"d__letter c__letter b__letter\" title=\"a\" id=\"1\">hello, me</p>" := by
  obtain ⟨base, hbase⟩ : ∃ base, (compile letter.block none letter.options).result = .ok base := ⟨_, rfl⟩
  obtain ⟨t, ht, t', ht', hrender⟩ : ∃ t, (compile signed.block (some base) signed.options).result = .ok t ∧
      ∃ t', (compile ⟨some "d", []⟩ (some t) {}).result = .ok t' ∧
        t'.render = .ok "<p class=\"d__letter c__letter b__letter\" title=\"a\" id=\"1\">hello, me</p>" := by
    cases hbase
    exact ⟨_, rfl, _, rfl, rfl⟩
  have hcompiled : Compiled [signed, letter] (some t) := .document _ (.document _ .none hbase) ht
  obtain ⟨rs, r, rs', d, hrs, hd⟩ := signed_decidesAlone
  obtain ⟨t₁, t₂, text, ht₁, ht₂, hrender₁, hrender₂⟩ := override_by_itself hcompiled hrs hd "d" {}
  cases ht'.symm.trans ht₂
  cases hrender.symm.trans hrender₂
  exact ⟨t, t₁, t', hcompiled, ht₁, ht₂, hrender₁, hrender₂⟩

end BlockTemplates
