/-
Texts and values have no part in the structure of the markup. A chain of documents and the chain of their blank forms
compile alike, level by level and failure by failure, and what they are rendered to has the same tags with the same
attributes. So have any two chains that differ only in texts and in the values of attributes.

Main statements: `compile_blank` (a document and its blank form compile alike), `Expands.blank` (they expand to the same
tags) and `values_keep_structure`.
-/
import BlockTemplates.Proofs.Compiling.Sections
import BlockTemplates.Proofs.Rendering.Nesting
import BlockTemplates.Proofs.Rendering.Outline
import BlockTemplates.Proofs.Rendering.TagSequence

namespace BlockTemplates

open Html Markup Render Source

/-! ## Compiling alike -/

/-- the templates realise the same readings, the second without their texts and values -/
def Alike (parent parent' : Option Template) : Prop :=
  ∃ rs, Realised rs (levelsOf parent) ∧ Realised (rs.map Reading.blank) (levelsOf parent')

/-- the same failure, or templates that are alike -/
inductive ResultsAlike : Except CompileError Template → Except CompileError Template → Prop
  | error (err : CompileError) : ResultsAlike (.error err) (.error err)
  | ok {t t' : Template} : Alike (some t) (some t') → ResultsAlike (.ok t) (.ok t')

theorem alike_none : Alike none none := ⟨[], .nil, .nil⟩

theorem ResultsAlike.error_iff {x x' : Except CompileError Template} (h : ResultsAlike x x') (err : CompileError) :
    x = .error err ↔ x' = .error err := by
  cases h with
  | error err' => rfl
  | ok halike => simp

theorem ResultsAlike.of_ok {x' : Except CompileError Template} {t : Template} (h : ResultsAlike (.ok t) x') :
    ∃ t', x' = .ok t' ∧ Alike (some t) (some t') := by
  cases h with
  | ok halike => exact ⟨_, rfl, halike⟩

theorem ResultsAlike.of_ok_blank {x : Except CompileError Template} {t' : Template} (h : ResultsAlike x (.ok t')) :
    ∃ t, x = .ok t ∧ Alike (some t) (some t') := by
  cases h with
  | ok halike => exact ⟨_, rfl, halike⟩

/-- the check for elements that contain themselves comes to the same -/
theorem ResultsAlike.check {x x' : Except CompileError Template} (h : ResultsAlike x x') :
    ResultsAlike (x.bind Template.check) (x'.bind Template.check) := by
  cases h with
  | error err => exact .error err
  | @ok t t' halike =>
    obtain ⟨rs, hrs, hblank⟩ := halike
    simp only [Except.bind, Template.check, recursiveElement?_blank hrs hblank]
    cases t.recursiveElement? with
    | none => exact .ok ⟨rs, hrs, hblank⟩
    | some name => exact .error _

section

variable {parent parent' : Option Template} (h : Alike parent parent') {d : Document} (hblind : d.options.helpers.Blind)
include h hblind

/-- a document and its blank form are drafted alike -/
theorem draft_blank : ResultsAlike (draft d parent) (draft d.blank parent') := by
  obtain ⟨rs, hrs, hblank⟩ := h
  have hverdict := verdict_blank hrs hblank hblind
  have hdraft := draft_verdict d parent
  have hdraft' := draft_verdict d.blank parent'
  rw [hverdict] at hdraft'
  cases hv : d.verdict (levelsOf parent) with
  | error err =>
    rw [hv] at hdraft hdraft'
    rw [hdraft, hdraft']
    exact .error err
  | ok tags =>
    rw [hv] at hdraft hdraft'
    obtain ⟨t, ht, -⟩ := hdraft
    obtain ⟨t', ht', -⟩ := hdraft'
    rw [ht, ht']
    obtain ⟨r, hreads, hprefixes, hr⟩ := draft_realises hrs ht
    obtain ⟨r', hreads', hprefixes', hr'⟩ := draft_realises hblank ht'
    rw [contextOver_blank] at hreads'
    obtain ⟨htags, hparts⟩ := hreads'.unique (hreads.blank hblind)
    have hreading : r' = r.blank := by
      have hsame : r'.prefixes = r.prefixes := by
        rw [hprefixes', hprefixes, prefixesOver_blank]
        rfl
      calc r' = ⟨r'.prefixes, r'.parts, r'.tags⟩ := rfl
        _ = ⟨r.prefixes, r.parts.blank, r.tags⟩ := by rw [hsame, hparts, htags]
    rw [hreading] at hr'
    exact .ok ⟨r :: rs, hr, hr'⟩

/-- a document and its blank form compile alike -/
theorem compile_blank : ResultsAlike (compile d.block parent d.options).result
    (compile d.blank.block parent' d.blank.options).result := by
  rw [compile_result, compile_result]
  exact (draft_blank h hblind).check

end

/-- the chain of the blank forms compiles exactly if the chain does, and to a template like its own -/
theorem compiled_blank {ds : List Document} {parent : Option Template} (h : Compiled ds parent)
    (hblind : ∀ d ∈ ds, d.options.helpers.Blind) :
    ∃ parent', Compiled (ds.map Document.blank) parent' ∧ Alike parent parent' := by
  induction h with
  | none => exact ⟨none, .none, alike_none⟩
  | document d _ hc ih =>
    rw [List.forall_mem_cons] at hblind
    obtain ⟨parent', hcompiled, halike⟩ := ih hblind.2
    have hresults := compile_blank halike hblind.1
    rw [hc] at hresults
    obtain ⟨t', hc', halike'⟩ := hresults.of_ok
    exact ⟨_, .document d.blank hcompiled hc', halike'⟩

theorem compiled_of_blank {ds : List Document} {parent' : Option Template} (h : Compiled (ds.map Document.blank) parent')
    (hblind : ∀ d ∈ ds, d.options.helpers.Blind) : ∃ parent, Compiled ds parent ∧ Alike parent parent' := by
  induction ds generalizing parent' with
  | nil =>
    cases h
    exact ⟨none, .none, alike_none⟩
  | cons d ds ih =>
    rw [List.forall_mem_cons] at hblind
    cases h with
    | document _ hbelow hc' =>
      obtain ⟨parent, hcompiled, halike⟩ := ih hbelow hblind.2
      have hresults := compile_blank halike hblind.1
      rw [hc'] at hresults
      obtain ⟨t, hc, halike'⟩ := hresults.of_ok_blank
      exact ⟨_, .document d hcompiled hc, halike'⟩

/-! ## The same tags -/

theorem AttributeSlots.position?_blank (s : AttributeSlots) (name : String) :
    s.blank.position? name = s.position? name := by
  unfold position?
  rw [AttributeSlots.blank, List.findIdx?_map]
  rfl

namespace Occurrence

variable (o : Occurrence)

/-- the names of all attributes that are written; class tokens make up a class attribute where none is given -/
def attributeNames : List String :=
  (if o.element.classNames ≠ [] ∧ ((o.slots.getD {}).position? "class").isNone then ["class"] else []) ++
    (o.slots.getD {}).names

/-- the tags of an element around those of its content -/
def tagsAround (tags : List Tag) : List Tag :=
  .opening o.tagName o.attributeNames :: tags ++
    if o.element.content.isSome || !isSelfClosing o.tagName then [.closing o.tagName] else []

theorem slots_blank : o.blank.slots.getD {} = (o.slots.getD {}).blank := by
  unfold blank
  cases o.slots with
  | none => rfl
  | some slots => rfl

theorem names_attributes (prefixes : List String) :
    (attributes prefixes o.element.classNames (o.slots.getD {})).map Prod.fst = o.attributeNames := by
  unfold attributes attributeNames
  split
  · simp [AttributeSlots.names, Function.comp_def]
  · simp [AttributeSlots.names, Function.comp_def]

theorem attributeNames_blank : o.blank.attributeNames = o.attributeNames := by
  unfold attributeNames
  rw [slots_blank, AttributeSlots.position?_blank, AttributeSlots.names_blank]
  rfl

theorem tagsAround_blank (tags : List Tag) : o.blank.tagsAround tags = o.tagsAround tags := by
  unfold tagsAround
  rw [attributeNames_blank]
  have hcontent : o.blank.element.content.isSome = o.element.content.isSome := Option.isSome_map
  rw [hcontent]
  rfl

variable {o}

theorem Sound.blank (h : o.Sound) : o.blank.Sound where
  tag := h.tag
  slots := by
    rw [slots_blank]
    exact ⟨(o.slots.getD {}).names_blank ▸ h.slots.distinct, (o.slots.getD {}).names_blank ▸ h.slots.names⟩

/-- an element shows its tags around those of its content, with whatever values -/
theorem Sound.shows (h : o.Sound) (prefixes : List String) {content : String} {tags : List Tag}
    (hcontent : Shows content tags) :
    Shows (o.opening prefixes ++ content ++ o.closing) (o.tagsAround tags) := by
  have hopening : Shows (o.opening prefixes) [.opening o.tagName o.attributeNames] := by
    have hattributes := attributes_sound h.slots prefixes o.element.classNames
    rw [opening_eq, ← o.names_attributes prefixes]
    exact shows_opening h.tag hattributes.names hattributes.values
  have hclosing : Shows o.closing
      (if o.element.content.isSome || !isSelfClosing o.tagName then [.closing o.tagName] else []) := by
    unfold closing
    split
    · exact shows_closing h.tag
    · exact shows_empty
  exact (hopening.append hcontent).append hclosing

/-- with and without its texts and values, an element shows the same -/
theorem Sound.shows_around (h : o.Sound) (prefixes : List String) {content content' : String} {tags : List Tag}
    (hcontent : Shows content tags) (hcontent' : Shows content' tags) :
    ∃ tags', Shows (o.around prefixes content) tags' ∧ Shows (o.blank.around prefixes content') tags' := by
  have hhelper : o.blank.element.isHelper = o.element.isHelper := rfl
  unfold around
  rw [hhelper]
  cases o.element.isHelper with
  | true => exact ⟨tags, hcontent, hcontent'⟩
  | false => exact ⟨_, h.shows prefixes hcontent, o.tagsAround_blank tags ▸ h.blank.shows prefixes hcontent'⟩

end Occurrence

/-- blank readings expand to the tags that the readings expand to -/
theorem Expands.blank {chain owner : List Reading} {prefixes : List String} {ps : Parts} {text : String}
    (h : Expands chain prefixes owner ps text) (hchain : ∀ r ∈ chain, r.Sound) (howner : ∀ r ∈ owner, r.Sound)
    (hps : ps.Sound) :
    ∃ text' tags, Expands (chain.map Reading.blank) prefixes (owner.map Reading.blank) ps.blank text' ∧
      Shows text tags ∧ Shows text' tags := by
  have hfound {name : String} {rs level : List Reading} {d : Definition}
      (hd : findDefinition name rs = some (level, d)) :
      findDefinition name (rs.map Reading.blank) = some (level.map Reading.blank, d.blank) := by
    rw [findDefinition_blank, hd]
    rfl
  induction h with
  | done => exact ⟨"", [], .done, shows_empty, shows_empty⟩
  | text value _ ih =>
    obtain ⟨s', tags, hs', hs, hblank⟩ := ih howner hps
    have hempty : Shows (escapeText "") [] := shows_empty
    exact ⟨_, tags, .text "" hs', (shows_text (escaped_escape .text value)).append hs, hempty.append hblank⟩
  | @anonymous owner o children ps content s _ _ ihc ih =>
    obtain ⟨⟨ho, -⟩, hchildren, hrest⟩ := hps
    obtain ⟨content', inner, hcontent', hcontent, hinner⟩ := ihc howner hchildren
    obtain ⟨s', tags, hs', hs, hblank⟩ := ih howner hrest
    refine ⟨_, _, .anonymous hcontent' hs', (ho.shows prefixes hcontent).append hs, ?_⟩
    exact (o.tagsAround_blank inner ▸ ho.blank.shows prefixes hinner).append hblank
  | named hd _ _ ihc ih =>
    obtain ⟨hoccurrence, hchildren, -, hlevel⟩ := sound_of_findDefinition hchain hd
    obtain ⟨content', inner, hcontent', hcontent, hinner⟩ := ihc hlevel hchildren
    obtain ⟨s', tags, hs', hs, hblank⟩ := ih howner hps.2.2
    obtain ⟨outer, houter, houter'⟩ := hoccurrence.shows_around prefixes hcontent hinner
    exact ⟨_, _, .named (hfound hd) hcontent' hs', houter.append hs, houter'.append hblank⟩
  | superCall hd _ _ ihc ih =>
    obtain ⟨-, hchildren, -, hlevel⟩ := sound_of_findDefinition (fun r hr => howner r (List.mem_of_mem_tail hr)) hd
    obtain ⟨content', inner, hcontent', hcontent, hinner⟩ := ihc hlevel hchildren
    obtain ⟨s', tags, hs', hs, hblank⟩ := ih howner hps
    have hd' := hfound hd
    rw [List.map_tail] at hd'
    exact ⟨_, _, .superCall hd' hcontent' hs', hcontent.append hs, hinner.append hblank⟩

/-- the blank forms of documents expand to the tags that the documents expand to -/
theorem Expansion.blank {ds : List Document} {text : String} (h : Expansion ds text) (hn : ∀ d ∈ ds, d.Named)
    (hblind : ∀ d ∈ ds, d.options.helpers.Blind) :
    ∃ text', Expansion (ds.map Document.blank) text' ∧ tagSequence text' = tagSequence text := by
  obtain ⟨leaf, rs, root, hreads, hroot, hexpands⟩ := h
  have hsound := hreads.sound hn
  have hr : root.Sound := hsound root (List.mem_of_getLast? hroot)
  obtain ⟨text', tags, hblank, hshows, hshows'⟩ := hexpands.blank hsound (by simpa using hr) hr.parts
  refine ⟨text', ⟨leaf.blank, rs.map Reading.blank, root.blank, hreads.blank hblind, ?_, hblank⟩, ?_⟩
  · rw [← List.map_cons, List.getLast?_map, hroot]
    rfl
  · rw [hshows'.tagSequence, hshows.tagSequence]

/-- what a chain and the chain of the blank forms compile to is rendered with the same tags -/
theorem render_blank {ds : List Document} {t t' : Template} (h : Compiled ds (some t))
    (hblank : Compiled (ds.map Document.blank) (some t')) (hn : ∀ d ∈ ds, d.Named)
    (hblind : ∀ d ∈ ds, d.options.helpers.Blind) :
    ∃ text text', t.render = .ok text ∧ t'.render = .ok text' ∧ tagSequence text' = tagSequence text := by
  obtain ⟨text, htext⟩ := render_of_compiled h
  obtain ⟨text', htext'⟩ := render_of_compiled hblank
  obtain ⟨blanked, hblanked, htags⟩ := Expansion.blank (expansion_of_render h htext) hn hblind
  obtain rfl := hblanked.unique (expansion_of_render hblank htext')
  exact ⟨text, blanked, htext, htext', htags⟩

/-! ## Names -/

/-- names are the same without texts and values -/
theorem named_blank {ns : List Node} : Named (blankNodes ns) ↔ Named ns := by
  induction ns using nodes_induction with
  | nil => simp only [blankNodes]
  | text value ns ih => simp only [blankNodes, Node.blank, named_text, ih]
  | comment value multiline ns ih => simp only [blankNodes, Node.blank, named_comment, ih]
  | superCall call ns ih => simp only [blankNodes, Node.blank, named_superCall, ih]
  | element e ns ihc ih =>
    have hattributes :
        (∀ attributes, e.blank.attributes = some attributes → ∀ a ∈ attributes.list, IsName .attr a.name) ↔
        ∀ attributes, e.attributes = some attributes → ∀ a ∈ attributes.list, IsName .attr a.name := by
      unfold Element.blank
      cases e.attributes with
      | none => simp
      | some attributes => simp [Attributes.blank, Attribute.blank]
    simp only [blankNodes, Node.blank_element, named_element, hattributes, e.blank_content, ihc, ih]
    rfl

theorem keepsNames_sections (helpers : Registry) : helpers.sections.KeepsNames := by
  intro name helper hfind e he
  rw [(Registry.find?_sections hfind).1]
  exact (named_element.1 he).2.2.1

theorem named_withSections {ds : List Document} (h : ∀ d ∈ ds, Named d.block.content) :
    ∀ d ∈ ds.map Document.withSections, d.Named := by
  rw [List.forall_mem_map]
  exact fun d hd => ⟨h d hd, keepsNames_sections _⟩

/-! ## Chains that differ in texts and values -/

theorem blind_withSections (ds : List Document) : ∀ d ∈ ds.map Document.withSections, d.options.helpers.Blind := by
  rw [List.forall_mem_map]
  exact fun d _ => d.options.helpers.blind_sections

theorem map_blank_withSections (ds : List Document) :
    (ds.map Document.withSections).map Document.blank = (ds.map Document.blank).map Document.withSections := by
  rw [List.map_map, List.map_map]
  rfl

theorem forall_named_blank {ds : List Document} :
    (∀ d ∈ ds.map Document.blank, Named d.block.content) ↔ ∀ d ∈ ds, Named d.block.content := by
  rw [List.forall_mem_map]
  exact forall₂_congr fun d _ => named_blank

/-- **Texts and values keep the structure.** Take two chains of documents that differ only in texts and in the values of
attributes, and in which no helper is invoked but the one for sections. Where the documents of one chain compile, so do
those of the other; on top of them the next documents both compile or both fail, and then with the same error. Templates
that compile, from names that can be parsed, are rendered with the same tags and the same attributes, in the same order. -/
theorem values_keep_structure {ds ds' : List Document} {d d' : Document} {parent : Option Template}
    (h : Compiled ds parent) (hsections : OnlySections (d :: ds)) (hsections' : OnlySections (d' :: ds'))
    (hsame : (d :: ds).map Document.blank = (d' :: ds').map Document.blank) :
    ∃ parent', Compiled ds' parent' ∧
      (∀ err, (compile d.block parent d.options).result = .error err ↔
        (compile d'.block parent' d'.options).result = .error err) ∧
      ∀ t, (compile d.block parent d.options).result = .ok t →
        ∃ t', (compile d'.block parent' d'.options).result = .ok t' ∧
          ((∀ e ∈ d :: ds, Named e.block.content) →
            ∃ text text', t.render = .ok text ∧ t'.render = .ok text' ∧ tagSequence text' = tagSequence text) := by
  have hsame' : ((d :: ds).map Document.withSections).map Document.blank =
      ((d' :: ds').map Document.withSections).map Document.blank := by
    rw [map_blank_withSections, map_blank_withSections, hsame]
  obtain ⟨hleaf, hbelow⟩ := List.cons.inj hsame'
  -- both chains compile like the chain of their common blank forms
  obtain ⟨parent₀, h₀, halike⟩ := compiled_blank ((compiled_withSections hsections.2).2 h) (blind_withSections ds)
  rw [hbelow] at h₀
  obtain ⟨parent', hws', halike'⟩ := compiled_of_blank h₀ (blind_withSections ds')
  have h' : Compiled ds' parent' := (compiled_withSections hsections'.2).1 hws'
  have hresults := compile_blank halike (d := d.withSections) d.options.helpers.blind_sections
  have hresults' := compile_blank halike' (d := d'.withSections) d'.options.helpers.blind_sections
  rw [compile_withSections (hsections.1 parent h), hleaf] at hresults
  rw [compile_withSections (hsections'.1 parent' h')] at hresults'
  refine ⟨parent', h', fun err => (hresults.error_iff err).trans (hresults'.error_iff err).symm, fun t ht => ?_⟩
  rw [ht] at hresults
  obtain ⟨t₀, ht₀, -⟩ := hresults.of_ok
  rw [ht₀] at hresults'
  obtain ⟨t', ht', -⟩ := hresults'.of_ok_blank
  refine ⟨t', ht', fun hn => ?_⟩
  have hn' : ∀ e ∈ d' :: ds', Named e.block.content := forall_named_blank.1 (hsame ▸ forall_named_blank.2 hn)
  have hchain := (compiled_withSections hsections).2 (.document d h ht)
  have hchain' := (compiled_withSections hsections').2 (.document d' h' ht')
  have hchain₀ : Compiled (((d' :: ds').map Document.withSections).map Document.blank) (some t₀) := .document _ h₀ ht₀
  obtain ⟨text, text₀, htext, htext₀, htags⟩ :=
    render_blank hchain (hsame' ▸ hchain₀) (named_withSections hn) (blind_withSections (d :: ds))
  obtain ⟨text', text₁, htext', htext₁, htags'⟩ :=
    render_blank hchain' hchain₀ (named_withSections hn') (blind_withSections (d' :: ds'))
  cases htext₀.symm.trans htext₁
  exact ⟨text, text', htext, htext', htags'.symm.trans htags⟩

/-- a section with an entry in it, which has a title -/
def entry (title : Option String) (text : String) : Document where
  block := ⟨some "b", [.element ⟨true, some "section", some [some "whole"], none,
    some [.element ⟨false, some "p", some [some "entry"], some ⟨none, [⟨"title", title⟩]⟩, some [.text text]⟩]⟩]⟩

/-- the same entry with a class and more text -/
def entryAgain (classes : Option String) (text : String) : Document where
  block := ⟨some "c", [.element ⟨false, none, some [some "entry"], some ⟨some {}, [⟨"class", classes⟩]⟩,
    some [.superCall {}, .text text]⟩]⟩

theorem entries_onlySections (title classes : Option String) (text text' : String) :
    OnlySections [entryAgain classes text', entry title text] := by
  refine onlySections (List.forall_mem_cons.2 ⟨⟨rfl, ?_⟩, List.forall_mem_cons.2 ⟨⟨rfl, ?_⟩, by simp⟩⟩)
  · exact .element nofun (.superCall (.text .nil)) .nil
  · exact .element (fun _ => rfl) (.element nofun (.text .nil) .nil) .nil

theorem entries_named (title classes : Option String) (text text' : String) :
    ∀ d ∈ [entryAgain classes text', entry title text], Named d.block.content := by
  have hp : IsName .tag "p" := .inl ⟨'p', [], rfl, by decide, by simp⟩
  have hsection : IsName .tag "section" := .inl ⟨'s', "ection".toList, rfl, by decide, List.all_eq_true.1 (by decide)⟩
  have hleaf : Named (entryAgain classes text').block.content := by
    refine .element (by simp) ?_ (.superCall (.text .nil)) .nil
    simpa using isName_class
  have hroot : Named (entry title text).block.content := by
    refine .element ?_ (by simp) (.element ?_ ?_ (.text .nil) .nil) .nil
    · simpa using hsection
    · simpa using hp
    · simpa using isName_title
  simpa using ⟨hleaf, hroot⟩

/-- what looks like markup in a title and in texts makes no tags -/
theorem entries_keep_structure :
    ∃ t t', Compiled [entryAgain (some "wide") " more", entry (some "a") "one"] (some t) ∧
      Compiled [entryAgain none "<script>", entry (some "\"><b>") "</p>"] (some t') ∧
      t.render = .ok "<p title=\"a\" class=\"c__entry b__entry wide\">one more</p>" ∧
      t'.render = .ok ("<p title=\"&quot;&gt;&lt;b&gt;\" class=\"c__entry b__entry\">" ++
        "&lt;/p&gt;&lt;script&gt;</p>") ∧
      tagSequence ("<p title=\"&quot;&gt;&lt;b&gt;\" class=\"c__entry b__entry\">" ++
        "&lt;/p&gt;&lt;script&gt;</p>") =
        tagSequence "<p title=\"a\" class=\"c__entry b__entry wide\">one more</p>" := by
  let root := entry (some "a") "one"
  let leaf := entryAgain (some "wide") " more"
  let root' := entry (some "\"><b>") "</p>"
  let leaf' := entryAgain none "<script>"
  obtain ⟨base, hbase⟩ : ∃ base, (compile root.block none root.options).result = .ok base := ⟨_, rfl⟩
  obtain ⟨base', hbase'⟩ : ∃ base', (compile root'.block none root'.options).result = .ok base' := ⟨_, rfl⟩
  obtain ⟨t, ht, hrender⟩ : ∃ t, (compile leaf.block (some base) leaf.options).result = .ok t ∧
      t.render = .ok "<p title=\"a\" class=\"c__entry b__entry wide\">one more</p>" := by
    cases hbase
    exact ⟨_, rfl, rfl⟩
  obtain ⟨t', ht', hrender'⟩ : ∃ t', (compile leaf'.block (some base') leaf'.options).result = .ok t' ∧
      t'.render = .ok ("<p title=\"&quot;&gt;&lt;b&gt;\" class=\"c__entry b__entry\">" ++
        "&lt;/p&gt;&lt;script&gt;</p>") := by
    cases hbase'
    exact ⟨_, rfl, rfl⟩
  have hroot : Compiled [root] (some base) := .document _ .none hbase
  have hsame : [leaf, root].map Document.blank = [leaf', root'].map Document.blank := rfl
  obtain ⟨parent', hparent', -, hok⟩ :=
    values_keep_structure hroot (entries_onlySections _ _ _ _) (entries_onlySections _ _ _ _) hsame
  cases hparent' with
  | document _ hnone hcompiled =>
    cases hnone
    cases hbase'.symm.trans hcompiled
    obtain ⟨t₁, ht₁, hnamed⟩ := hok t ht
    cases ht'.symm.trans ht₁
    obtain ⟨text, text', htext, htext', htags⟩ := hnamed (entries_named _ _ _ _)
    cases hrender.symm.trans htext
    cases hrender'.symm.trans htext'
    exact ⟨t, t', .document _ hroot ht, .document _ (.document _ .none hbase') ht', hrender, hrender', htags⟩

end BlockTemplates
