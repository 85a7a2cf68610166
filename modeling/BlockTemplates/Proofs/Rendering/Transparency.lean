/-
Sections in the place of their contents. A section stands for the nodes in it. Without a name it can give way to them in
every document: what is compiled is the same, but that a named element whose only content was an empty section does not
invoke its content any more. With a name, it can in a root where no other element has the name; then its content is
written where it was invoked.

Main statements: `Parts.Inlined.map_definitions` (what is compiled where nothing is lost), `draft_of_replaces` and
`sections_are_transparent`.
-/
import BlockTemplates.Proofs.Compiling.PlainVerdicts
import BlockTemplates.Proofs.Rendering.EmptyContents
import BlockTemplates.Proofs.Rendering.InPlace

namespace BlockTemplates

open Html Markup Render

/-! ## Bodies of elements with other content -/

/-- the operations around the content of an element, without the invocation of its content -/
theorem filter_renderOps (name : String) (o : Occurrence) :
    (o.renderOps name).filter (· ≠ .invokeContent name) =
      if o.element.isHelper then [] else o.openingOps ++ o.closingOps := by
  have hkept {ops : List Op} (h : calls ops = []) : ops.filter (· ≠ .invokeContent name) = ops := by
    refine List.filter_eq_self.2 fun op hop => ?_
    have hcall : ¬ op.isCall = true := List.filter_eq_nil_iff.1 h op hop
    simp only [ne_eq, decide_eq_true_eq]
    rintro rfl
    exact hcall rfl
  unfold Occurrence.renderOps
  split
  · simp
  · rw [List.filter_append, List.filter_append, hkept (calls_openingOps o), hkept (calls_closingOps o)]
    split
    · simp
    · simp

namespace Parts.Inlined

variable {exact : Prop} {ps qs : Parts}

theorem ops_eq (h : Inlined exact none ps qs) : qs.ops = ps.ops := by
  induction h with
  | done => rfl
  | text value _ ih => simp only [Parts.ops, ih]
  | superCall target _ ih => simp only [Parts.ops, ih]
  | anonymous ho _ _ ihc ih => simp only [Parts.ops, ho.openingOps, ho.closingOps, ihc, ih]
  | named _ _ _ _ _ ih => simp only [Parts.ops, ih]
  | unnamed hl => cases hl
  | opened hl => cases hl

theorem slotLists_eq (h : Inlined exact none ps qs) : qs.slotLists = ps.slotLists := by
  induction h with
  | done => rfl
  | text _ _ ih => exact ih
  | superCall _ _ ih => exact ih
  | anonymous _ _ _ ihc ih => simp only [Parts.slotLists, ihc, ih]
  | named _ ho _ _ ihc ih => simp only [Parts.slotLists, ho.slots, ihc, ih]
  | unnamed hl => cases hl
  | opened hl => cases hl

/-- where nothing is lost, the definitions correspond -/
theorem map_definitions {β : Type} {f : String × Definition → β} (h : Inlined exact none ps qs)
    (hf : ∀ name d d', (name, d) ∈ ps.definitions → (name, d') ∈ qs.definitions → d.Inlined exact none d' →
      f (name, d') = f (name, d)) : qs.definitions.map f = ps.definitions.map f := by
  induction h with
  | done => rfl
  | text _ _ ih => exact ih hf
  | superCall _ _ ih => exact ih hf
  | anonymous _ _ _ ihc ih =>
    simp only [Parts.definitions, List.mem_append] at hf
    simp only [Parts.definitions, List.map_append,
      ihc fun name d d' hd hd' => hf name d d' (.inl hd) (.inl hd'),
      ih fun name d d' hd hd' => hf name d d' (.inr hd) (.inr hd')]
  | named _ ho hc _ ihc ih =>
    simp only [Parts.definitions, List.mem_append, List.mem_cons] at hf
    simp only [Parts.definitions, List.map_append, List.map_cons,
      ihc fun name d d' hd hd' => hf name d d' (.inl hd) (.inl hd'),
      ih fun name d d' hd hd' => hf name d d' (.inr (.inr hd)) (.inr (.inr hd')),
      hf _ _ _ (.inr (.inl rfl)) (.inr (.inl rfl)) ⟨ho, hc⟩]
  | unnamed hl => cases hl
  | opened hl => cases hl

end Parts.Inlined

namespace Definition.Inlined

variable {exact : Prop} {d d' : Definition} (h : d.Inlined exact none d')
include h

theorem content_eq (name : String) : (d'.body name).content = (d.body name).content := by
  simp only [Definition.body, h.2.ops_eq]

/-- if they agree on whether they have content, the bodies are the same -/
theorem body_eq (hexact : exact) (hname : d.occurrence.element.name.isSome) (name : String) :
    d'.body name = d.body name := by
  simp only [Definition.body, h.2.ops_eq, h.1.renderOps name (h.1.filled hexact hname)]

/-- in any case they are the same without invocations of an empty content -/
theorem pruned_body (htidy : d.Tidy) (htidy' : d'.Tidy) (name : String) :
    (d'.body name).pruned name = (d.body name).pruned name := by
  unfold Body.pruned
  rw [h.content_eq]
  by_cases hempty : (d.body name).content = []
  · have hrender (d : Definition) : Buffer.ofList ((d.body name).render.filter (· ≠ .invokeContent name)) =
        .ofList (if d.occurrence.element.isHelper then [] else d.occurrence.openingOps ++ d.occurrence.closingOps) := by
      rw [← filter_renderOps name]
      exact ofList_filter (by simp) _
    rw [if_pos hempty, if_pos hempty, hrender, hrender, h.1.isHelper, h.1.openingOps, h.1.closingOps]
  · have hfilled {d : Definition} (htidy : d.Tidy) (hne : (d.body name).content ≠ [])
        (hh : d.occurrence.element.isHelper = false) : (d.occurrence.element.content.getD []).isEmpty = false := by
      rw [List.isEmpty_eq_false_iff]
      intro hnone
      simp [Definition.body, htidy hh hnone, Parts.ops, Buffer.ofList, Buffer.pushAll, Buffer.toList] at hne
    have hrender : d'.occurrence.renderOps name = d.occurrence.renderOps name := by
      refine h.1.renderOps name fun hh => ?_
      rw [hfilled htidy hempty hh, hfilled htidy' (h.content_eq name ▸ hempty) (h.1.isHelper.trans hh)]
    rw [if_neg hempty, if_neg hempty]
    simp only [Definition.body, h.2.ops_eq, hrender]

end Definition.Inlined

/-! ## Documents that are read alike -/

/-- the template that a document makes, from how it is read -/
theorem draft_of_reads {d : Document} {parent : Option Template} {t : Template} {rs : List Reading}
    (hp : Realised rs (levelsOf parent)) (h : draft d parent = .ok t) :
    ∃ tags ps, Reads (contextOver d.options.helpers rs) none [] d.block.content tags ps ∧
      t = {
        leaf := {
          blockNames := d.blockNames
          prefixes := prefixesOver d.blockNames rs
          root := if (levelsOf parent).isEmpty then (Buffer.ofList ps.ops).toList else []
          elements := ps.bodies.reverse
          tagNames := tags
          attributeLists := ps.slotLists.reverse }
        ancestors := levelsOf parent } := by
  obtain ⟨r, hreads, hprefixes, hlevels⟩ := draft_realises hp h
  obtain ⟨top, record, -, rfl⟩ := draft_eq_ok h
  cases hlevels with
  | cons hl _ =>
    refine ⟨r.tags, r.parts, hreads, ?_⟩
    simp only [assemble, Template.mk.injEq, Level.mk.injEq, true_and, and_true]
    exact ⟨hl.prefixes.trans hprefixes, hl.root, hl.elements, hl.tagNames, hl.attributeLists⟩

section

variable {d d' : Document} {parent : Option Template} {exact : Prop} (hnames : d'.blockNames = d.blockNames)
  (hhelpers : d'.options.helpers = d.options.helpers)
include hnames hhelpers

/-- documents of which one is judged and read like the other make the same templates -/
theorem draft_of_replaces {rs : List Reading} (hp : Realised rs (levelsOf parent))
    (hverdict : d'.verdict (levelsOf parent) = d.verdict (levelsOf parent))
    (hreplaces : (contextOver d.options.helpers rs).Replaces exact none d.block.content d'.block.content) :
    (draft d' parent).map Template.pruned = (draft d parent).map Template.pruned ∧
      (exact → draft d' parent = draft d parent) := by
  cases hdraft : draft d parent with
  | error err =>
    have hdraft' : draft d' parent = .error err := by
      rw [draft_eq_error_iff] at hdraft ⊢
      exact hverdict.trans hdraft
    rw [hdraft']
    exact ⟨rfl, fun _ => rfl⟩
  | ok t =>
    obtain ⟨t', hdraft'⟩ : ∃ t', draft d' parent = .ok t' := by
      cases hdraft' : draft d' parent with
      | error err =>
        rw [draft_eq_error_iff, hverdict, ← draft_eq_error_iff, hdraft] at hdraft'
        contradiction
      | ok t' => exact ⟨t', rfl⟩
    obtain ⟨tags, ps, hreads, rfl⟩ := draft_of_reads hp hdraft
    obtain ⟨tags', qs, hreads', rfl⟩ := draft_of_reads hp hdraft'
    obtain ⟨l, _, _, hl, -, hreplaced, htags, hinlined⟩ := hreplaces (by simp) hreads
    rw [Option.map_eq_none_iff] at hl
    subst hl
    obtain ⟨rfl, rfl⟩ := (hhelpers ▸ hreads').unique hreplaced
    cases htags
    have htidy := hreads.tidy
    have htidy' := hreads'.tidy
    have hpruned : qs.bodies.map (fun p => (p.1, p.2.pruned p.1)) = ps.bodies.map fun p => (p.1, p.2.pruned p.1) := by
      simp only [Parts.bodies, List.map_map]
      refine hinlined.map_definitions fun name d d' hd hd' h => ?_
      exact congrArg (name, ·) (h.pruned_body (htidy _ hd) (htidy' _ hd') name)
    rw [hdraft']
    refine ⟨?_, fun hexact => ?_⟩
    · simp only [Except.map, Template.pruned, Level.pruned, hnames, hinlined.ops_eq, hinlined.slotLists_eq,
        List.map_reverse, hpruned]
    · have hbodies : qs.bodies = ps.bodies := by
        refine hinlined.map_definitions fun name d d' hd hd' h => ?_
        obtain ⟨hmem, -⟩ := Parts.mem_occurrences_of_definition hd
        have hname := (hreads.readFrom _ hmem).name
        exact congrArg (name, ·) (h.body_eq hexact (by simp [hname]) name)
      simp only [hnames, hinlined.ops_eq, hinlined.slotLists_eq, hbodies]

/-- so what is compiled is the same, literally if both agree on which named elements have any content -/
theorem compile_of_replaces {ds : List Document} (h : Compiled ds parent)
    (hverdict : d'.verdict (levelsOf parent) = d.verdict (levelsOf parent))
    (hreplaces : ∀ ctx : Context, ctx.helpers = d.options.helpers →
      ctx.Replaces exact none d.block.content d'.block.content) :
    (compile d'.block parent d'.options).result.map Template.pruned =
        (compile d.block parent d.options).result.map Template.pruned ∧
      (exact → (compile d'.block parent d'.options).result = (compile d.block parent d.options).result) := by
  obtain ⟨rs, -, hp⟩ := compiled_reads h
  obtain ⟨hpruned, hsame⟩ := draft_of_replaces hnames hhelpers hp hverdict (hreplaces _ rfl)
  exact ⟨compile_of_draft_pruned h h hpruned, fun hexact => by rw [compile_result, compile_result, hsame hexact]⟩

end

/-! ## Sections -/

theorem helpersAreSections_fill {hole : Hole} {e : Element} (h : HelpersAreSections (hole.fill [.element e])) :
    HelpersAreSections (hole.fill (e.content.getD [])) := by
  rw [helpersAreSections_iff] at h ⊢
  refine forall_elementsIn_fill (fun _ _ _ hf => hf) (fun hns f hf => hns f ?_) h
  simp [hf]

section

variable {ctx : Context} {e : Element}

/-- a section without a name is read as its content, wherever it stands -/
theorem replaces_section (exact : Prop) (hn : e.name = none) (hh : e.isHelper = true) (hplain : ctx.Plain [.element e]) :
    ctx.Replaces exact none [.element e] (e.content.getD []) := by
  intro within tags tags₁ ps _ hreads
  obtain ⟨tags₂, children, _, hc, hr, rfl⟩ := (reads_element_iff (plain_element.1 hplain).1).1 hreads
  cases hr
  rw [hn, Tags.after_of_anonymous hn] at hc
  have hplaced : (ctx.occurrence tags e).placed children .done = children := by
    rw [placed_of_helper hn hh, Parts.append_done]
  have hself : children.Inlined exact none children := .refl (by simp)
  exact ⟨none, tags₁, children, rfl, by simp, hc, .refl tags₁, hplaced.symm ▸ hself⟩

/-- a section with a name is read as its content but for the name, if no other element in it has the name and nothing in
it calls the content of another level -/
theorem replaces_opened {n : String} (exact : Prop) (hn : e.name = some n) (hh : e.isHelper = true)
    (hplain : ctx.Plain [.element e]) (hothers : ∀ f ∈ elementsIn (e.content.getD []), f.name ≠ some n)
    (hcalls : ∀ call, Node.superCall call ∉ allNodes (e.content.getD [])) :
    ctx.Replaces exact (some n) [.element e] (e.content.getD []) := by
  intro within tags tags₁ ps _ hreads
  obtain ⟨children, tags₁', rfl, hc, hagree, hself⟩ := hreads.content_of_named hn hplain hothers hcalls
  let d : Definition := ⟨ctx.occurrence tags e, children⟩
  have hopened : (Parts.named n d.occurrence children .done).Inlined exact (some (n, d)) (children.append .done) :=
    .opened rfl hh (hself _ rfl) .done
  rw [Parts.append_done] at hopened
  refine ⟨some (n, d), tags₁', children, rfl, ?_, hc, hagree, hopened⟩
  rintro _ ⟨⟩
  simp [Parts.definitions, d]

end

section

variable {name : Option String} {options : Options} {hole : Hole} {e : Element}
  (hsection : options.helpers.find? "section" = some sectionHelper)
  (hsections : HelpersAreSections (hole.fill [.element e])) (hh : e.isHelper = true)
include hsection hsections hh

/-- a document is judged alike with a section without a name and with its content -/
theorem verdict_section (hn : e.name = none) (levels : List Level) :
    Document.verdict ⟨⟨name, hole.fill (e.content.getD [])⟩, options⟩ levels =
      Document.verdict ⟨⟨name, hole.fill [.element e]⟩, options⟩ levels := by
  let env : Surroundings := Document.surroundings ⟨⟨name, hole.fill [.element e]⟩, options⟩ levels
  have hplain : env.context.Plain (hole.fill [.element e]) := plain_of_sections hsection hsections
  have hplain' : env.context.Plain (hole.fill (e.content.getD [])) :=
    plain_of_sections hsection (helpersAreSections_fill hsections)
  have hwithin (ns : List Node) : HelpersWithin (nodesHeight ns + options.expansionLimit) ns :=
    (helpersWithin_nodesHeight ns).mono (Nat.le_add_right _ _)
  -- both are judged with the greater of their depths
  let depth := max (nodesHeight (hole.fill [.element e]) + options.expansionLimit)
    (nodesHeight (hole.fill (e.content.getD [])) + options.expansionLimit)
  have hle : nodesHeight (hole.fill [.element e]) + options.expansionLimit ≤ depth := Nat.le_max_left _ _
  have hle' : nodesHeight (hole.fill (e.content.getD [])) + options.expansionLimit ≤ depth := Nat.le_max_right _ _
  calc Document.verdict ⟨⟨name, hole.fill (e.content.getD [])⟩, options⟩ levels
      = judge env depth none [] (hole.fill (e.content.getD [])) := (judge_of_le hle' hplain' (hwithin _) _ _).symm
    _ = judge env depth none [] (hole.fill [.element e]) :=
        (judge_fill_section hn hh hplain hplain' ((hwithin _).mono hle) ((hwithin _).mono hle') _ _).symm
    _ = Document.verdict ⟨⟨name, hole.fill [.element e]⟩, options⟩ levels := judge_of_le hle hplain (hwithin _) _ _

/-- without a name, a section can give way to its content in every document -/
theorem compile_section (hn : e.name = none) {ds : List Document} {parent : Option Template} (h : Compiled ds parent) :
    (compile ⟨name, hole.fill (e.content.getD [])⟩ parent options).result.map Template.pruned =
        (compile ⟨name, hole.fill [.element e]⟩ parent options).result.map Template.pruned ∧
      (e.content.getD [] ≠ [] ∨ hole.isOnlyContent = false →
        (compile ⟨name, hole.fill (e.content.getD [])⟩ parent options).result =
          (compile ⟨name, hole.fill [.element e]⟩ parent options).result) := by
  let d : Document := ⟨⟨name, hole.fill [.element e]⟩, options⟩
  let d' : Document := ⟨⟨name, hole.fill (e.content.getD [])⟩, options⟩
  refine @compile_of_replaces d d' parent (e.content.getD [] ≠ [] ∨ hole.isOnlyContent = false) rfl rfl ds h
    (verdict_section hsection hsections hh hn _) fun ctx hctx => ?_
  have hfound : ctx.helpers.find? "section" = some sectionHelper := hctx ▸ hsection
  have hplain : ctx.Plain (hole.fill [.element e]) := plain_of_sections hfound hsections
  have hplain' : ctx.Plain (hole.fill (e.content.getD [])) :=
    plain_of_sections hfound (helpersAreSections_fill hsections)
  exact (replaces_section _ hn hh (plain_of_fill hplain)).fill hplain hplain' (by simp) (by simp) id

/-- with a name, it can in a root where no other element has the name -/
theorem renderedAlike_section {n : String} (hn : e.name = some n)
    (honce : (elementsIn (hole.fill [.element e])).countP (·.name == some n) = 1)
    (hattributes : e.attributes.bind (·.superCall) = none) :
    RenderedAlike [⟨⟨name, hole.fill [.element e]⟩, options⟩] [⟨⟨name, hole.fill (e.content.getD [])⟩, options⟩] := by
  have hplain : (contextOver options.helpers []).Plain (hole.fill [.element e]) := plain_of_sections hsection hsections
  have hplain' : (contextOver options.helpers []).Plain (hole.fill (e.content.getD [])) :=
    plain_of_sections hsection (helpersAreSections_fill hsections)
  let env : Surroundings := Document.surroundings ⟨⟨name, []⟩, options⟩ []
  have haccepts : env.Accepts (.element e) := by
    intro tags
    have henv : env.context.Plain (hole.fill [.element e]) := plain_of_sections hsection hsections
    obtain ⟨he, -⟩ := plain_element.1 (plain_of_fill henv)
    have hnone : env.attributeFault? e = none := (attributeFault?_root_iff rfl).2 hattributes
    simp [Surroundings.elementFault?, hh, hn, hnone, helperFault?_eq_none hh (he tags)]
  simp only [RenderedAlike, compiled_root_iff]
  refine compile_root_of_replaces hplain hplain' hn honce ?_ (replaces_opened False hn hh (plain_of_fill hplain))
  rw [allNodes_element, List.forall_mem_cons, List.forall_mem_append]
  exact ⟨fun h => h.2.1, fun h => ⟨haccepts, h, by simp [allNodes]⟩⟩

end

/-- **Sections are transparent.** Let the only helper elements of a document be sections, and let one of them, at any
depth, give way to its content. If it has no name, the document compiles to the same, or fails with the same error, as a
root and on top of every template: the same literally, except that a named element in which an empty section was all that
stood does not invoke its content, which is empty, any more. So it is rendered alike, and all that extends it is. If the
section has a name that no other element has, and no super call among its attributes, the document is rendered alike as a
root. -/
theorem sections_are_transparent {name : Option String} {options : Options} {hole : Hole} {e : Element}
    (hsection : options.helpers.find? "section" = some sectionHelper)
    (hsections : HelpersAreSections (hole.fill [.element e])) (hh : e.isHelper = true) :
    (e.name = none → ∀ ds,
      (∀ parent, Compiled ds parent →
        (compile ⟨name, hole.fill (e.content.getD [])⟩ parent options).result.map Template.pruned =
            (compile ⟨name, hole.fill [.element e]⟩ parent options).result.map Template.pruned ∧
          (e.content.getD [] ≠ [] ∨ hole.isOnlyContent = false →
            (compile ⟨name, hole.fill (e.content.getD [])⟩ parent options).result =
              (compile ⟨name, hole.fill [.element e]⟩ parent options).result)) ∧
        ∀ us, RenderedAlike (us ++ ⟨⟨name, hole.fill [.element e]⟩, options⟩ :: ds)
          (us ++ ⟨⟨name, hole.fill (e.content.getD [])⟩, options⟩ :: ds)) ∧
      ∀ n, e.name = some n → (elementsIn (hole.fill [.element e])).countP (·.name == some n) = 1 →
        e.attributes.bind (·.superCall) = none →
        RenderedAlike [⟨⟨name, hole.fill [.element e]⟩, options⟩]
          [⟨⟨name, hole.fill (e.content.getD [])⟩, options⟩] := by
  constructor
  · intro hn ds
    have hcompile (parent : Option Template) (h : Compiled ds parent) :=
      @compile_section name options hole e hsection hsections hh hn ds parent h
    exact ⟨hcompile, renderedAlike_of_pruned fun parent h => (hcompile parent h).1⟩
  · intro n hn honce hattributes
    exact renderedAlike_section hsection hsections hh hn honce hattributes

/-- a named element with the nodes in its braces -/
def braced (content : List Node) : Block :=
  ⟨some "b", [.element ⟨false, none, some [some "m"], none, some content⟩]⟩

/-- a section without a name and without content -/
def vacant : Element := ⟨true, some "section", none, none, none⟩

/-- What is compiled need not be the same: an element that has nothing but an empty section in its braces invokes its
content, and with nothing in them it does not. -/
theorem vacant_section_is_invoked :
    HelpersAreSections (braced [.element vacant]).content ∧ vacant.name = none ∧
      ∃ t t', (compile (braced [.element vacant]) none {}).result = .ok t ∧
        (compile (braced (vacant.content.getD [])) none {}).result = .ok t' ∧
        t.leaf.elements = [("m", ⟨[.literal "<div class=\"", .elementClasses ["m"], .literal "\">", .invokeContent "m",
          .literal "</div>"], []⟩)] ∧
        t'.leaf.elements = [("m", ⟨[.literal "<div class=\"", .elementClasses ["m"], .literal "\"></div>"], []⟩)] ∧
        t' ≠ t ∧ t'.pruned = t.pruned :=
  ⟨helpersAreSections_iff.2 (by simp [braced, vacant]), rfl, _, _, rfl, rfl, rfl, rfl, by decide, by decide⟩

/-- a section in a section -/
def noted (name : Option String) : Element where
  isHelper := true
  tagName := some "section"
  names := name.map fun n => [some n]
  attributes := none
  content := some [.text "a", .element ⟨true, some "section", none, none, some [.text "b"]⟩]

/-- a document with the nodes in a paragraph -/
def paragraph (ns : List Node) : Document where
  block := ⟨some "b", Hole.fill (.inside [.text "1"] ⟨false, some "p", some [some "line"], none, none⟩
    (.among [] [.text "c"]) [.text "2"]) ns⟩
  options := {}

/-- a document that writes more in it -/
def longer : Document where
  block := ⟨some "c", [.element ⟨false, none, some [some "line"], none, some [.superCall {}, .text "d"]⟩]⟩
  options := {}

theorem noted_is_transparent :
    (∃ t t', Compiled [longer, paragraph [.element (noted none)]] (some t) ∧
      Compiled [longer, paragraph ((noted none).content.getD [])] (some t') ∧
      t.render = .ok "1<p class=\"c__line b__line\">abcd</p>2" ∧ t'.render = t.render) ∧
    ∃ t t', Compiled [paragraph [.element (noted (some "x"))]] (some t) ∧
      Compiled [paragraph ((noted (some "x")).content.getD [])] (some t') ∧
      t.render = .ok "1<p class=\"b__line\">abc</p>2" ∧ t'.render = t.render := by
  have hsections (name : Option String) : HelpersAreSections (paragraph [.element (noted name)]).block.content :=
    helpersAreSections_iff.2 (by simp [paragraph, Hole.fill, noted])
  have hrendered {ds ds' : List Document} {text : String} (halike : RenderedAlike ds ds')
      (h : ∃ t, Compiled ds (some t) ∧ t.render = .ok text) :
      ∃ t t', Compiled ds (some t) ∧ Compiled ds' (some t') ∧ t.render = .ok text ∧ t'.render = t.render := by
    obtain ⟨t, ht, hrender⟩ := h
    obtain ⟨t', ht'⟩ := halike.1.1 ⟨t, ht⟩
    obtain ⟨text, htext, htext'⟩ := halike.2 t t' ht ht'
    exact ⟨t, t', ht, ht', hrender, htext'.trans htext.symm⟩
  constructor
  · obtain ⟨hunnamed, -⟩ := @sections_are_transparent _ {} _ _ rfl (hsections none) rfl
    obtain ⟨-, halike⟩ := hunnamed rfl []
    refine hrendered (halike [longer]) ?_
    obtain ⟨base, hbase⟩ : ∃ base, (compile (paragraph [.element (noted none)]).block none {}).result = .ok base :=
      ⟨_, rfl⟩
    cases hbase
    exact ⟨_, .document longer (.document _ .none rfl) rfl, rfl⟩
  · obtain ⟨-, hnamed⟩ := @sections_are_transparent _ {} _ _ rfl (hsections (some "x")) rfl
    refine hrendered (hnamed "x" rfl (by simp [Hole.fill, noted, Element.name]) rfl) ?_
    exact ⟨_, .document _ .none rfl, rfl⟩

end BlockTemplates
