/-
Extensions that leave each other alone. A document that neither defines a name nor calls it by a super call is read the
same whether a level that defines the name stands below it or not. So two documents of which neither touches what the
other one defines can extend a template in either order.

Main statements: `Reads.on_top` (such a document reads the same on top of the other one), `Expands.transfer` (chains in
which definitions and their super calls are found alike expand alike) and `extensions_commute`.
-/
import BlockTemplates.Proofs.Reading.Inheritance
import BlockTemplates.Proofs.Rendering.Expansion

namespace BlockTemplates

open Html Markup Render

/-! ## Leaving names alone -/

/-- the target of a super call among the attributes -/
def Markup.Element.superTarget? (e : Element) : Option String :=
  (e.attributes.bind (·.superCall)).bind fun call => call.elementName <|> e.name

/-- there is a super call for the name, in content or among attributes -/
def Reading.CallsSuper (r : Reading) (name : String) : Prop :=
  name ∈ r.parts.superTargets ∨ ∃ p ∈ r.parts.occurrences, p.2.element.superTarget? = some name

/-- what the other one defines is neither defined nor called -/
def Reading.LeavesAlone (r other : Reading) : Prop :=
  ∀ name, (other.definition? name).isSome → r.definition? name = none ∧ ¬ r.CallsSuper name

section

variable {r other : Reading} (h : r.LeavesAlone other)
include h

theorem Reading.LeavesAlone.definition?_eq_none {name : String} {d : Definition} (hd : other.definition? name = some d) :
    r.definition? name = none := by
  obtain ⟨hnone, -⟩ := h name (by simp [hd])
  exact hnone

theorem Reading.LeavesAlone.not_defined_of_callsSuper {name : String} (hname : r.CallsSuper name) :
    other.definition? name = none := by
  rw [← Option.not_isSome_iff_eq_none]
  intro hsome
  obtain ⟨-, hcalls⟩ := h name hsome
  exact hcalls hname

theorem Reading.LeavesAlone.not_defined_of_occurrence {name : String} {o : Occurrence}
    (ho : (some name, o) ∈ r.parts.occurrences) : other.definition? name = none := by
  rw [← Option.not_isSome_iff_eq_none]
  intro hsome
  obtain ⟨hnone, -⟩ := h name hsome
  exact Parts.fst_ne_of_lookup hnone _ ho rfl

end

/-! ## Reading in other surroundings -/

theorem Context.slotsOf_congr {ctx ctx' : Context} {e : Element}
    (h : ∀ name, e.superTarget? = some name → ctx'.slots? name = ctx.slots? name) : ctx'.slotsOf e = ctx.slotsOf e := by
  unfold Element.superTarget? at h
  unfold Context.slotsOf
  cases ha : e.attributes with
  | none => rfl
  | some attributes =>
    obtain ⟨_ | call, list⟩ := attributes
    · cases list with
      | nil => rfl
      | cons a as => rfl
    · simp only [ha, Option.bind_some] at h ⊢
      cases htarget : call.elementName <|> e.name with
      | none => rfl
      | some name => simp only [Option.bind_some, h name htarget]

theorem Context.tagOf_congr {ctx ctx' : Context} {e : Element} (tags : Tags)
    (h : ∀ name, e.name = some name → ctx'.tag? name = ctx.tag? name) : ctx'.tagOf tags e = ctx.tagOf tags e := by
  unfold Context.tagOf
  split
  · rename_i name hname _
    rw [h name hname]
  · rfl

theorem Context.inner_congr {ctx ctx' : Context} (h : ctx'.helpers = ctx.helpers) (e : Element) (tag : Option String) :
    ctx'.inner e tag = ctx.inner e tag := by
  unfold Context.inner
  rw [h]

/-- nodes read the same in surroundings that agree on the elements and on the targets of their attributes -/
theorem Reads.congr {ctx ctx' : Context} {within : Option String} {tags tags' : Tags} {nodes : List Node} {ps : Parts}
    (h : Reads ctx within tags nodes tags' ps) (hhelpers : ctx'.helpers = ctx.helpers)
    (htag : ∀ name o, (some name, o) ∈ ps.occurrences → ctx'.tag? name = ctx.tag? name)
    (hslots : ∀ p ∈ ps.occurrences, ∀ name, p.2.element.superTarget? = some name → ctx'.slots? name = ctx.slots? name) :
    Reads ctx' within tags nodes tags' ps := by
  induction h with
  | done => exact .done
  | text value _ ih => exact .text value (ih htag hslots)
  | comment value multiline _ ih => exact .comment value multiline (ih htag hslots)
  | superCall ht _ ih => exact .superCall ht (ih htag hslots)
  | @named within tags nodes tags₁ tags₂ children ps e name inner hn hi _ _ ihc ih =>
    simp only [Parts.occurrences, List.mem_cons, List.mem_append] at htag hslots
    have htagOf : ctx'.tagOf tags e = ctx.tagOf tags e := by
      refine Context.tagOf_congr tags fun name' hname' => ?_
      cases hn.symm.trans hname'
      exact htag name _ (.inl rfl)
    have hslotsOf : ctx'.slotsOf e = ctx.slotsOf e := Context.slotsOf_congr (hslots _ (.inl rfl))
    rw [← htagOf, ← hslotsOf]
    rw [← htagOf, ← Context.inner_congr hhelpers] at hi
    exact .named hn hi (ihc (fun n o ho => htag n o (.inr (.inl ho))) fun p hp => hslots p (.inr (.inl hp)))
      (ih (fun n o ho => htag n o (.inr (.inr ho))) fun p hp => hslots p (.inr (.inr hp)))
  | anonymous hn hh _ _ ihc ih =>
    simp only [Parts.occurrences, List.mem_cons, List.mem_append] at htag hslots
    rw [← Context.slotsOf_congr (hslots _ (.inl rfl))]
    exact .anonymous hn hh (ihc (fun n o ho => htag n o (.inr (.inl ho))) fun p hp => hslots p (.inr (.inl hp)))
      (ih (fun n o ho => htag n o (.inr (.inr ho))) fun p hp => hslots p (.inr (.inr hp)))
  | spliced hn hh hi _ _ ihc ih =>
    simp only [Parts.occurrences_append, List.mem_append] at htag hslots
    rw [← Context.inner_congr hhelpers] at hi
    exact .spliced hn hh hi (ihc (fun n o ho => htag n o (.inl ho)) fun p hp => hslots p (.inl hp))
      (ih (fun n o ho => htag n o (.inr ho)) fun p hp => hslots p (.inr hp))

/-- a document reads the same on top of one that it leaves alone -/
theorem Reads.on_top {helpers helpers' : Registry} {rs : List Reading} {r other : Reading} {nodes nodes' : List Node}
    (h : Reads (contextOver helpers rs) none [] nodes r.tags r.parts)
    (hother : Reads (contextOver helpers' rs) none [] nodes' other.tags other.parts) (halone : r.LeavesAlone other) :
    Reads (contextOver helpers (other :: rs)) none [] nodes r.tags r.parts := by
  refine h.congr rfl ?_ ?_
  · intro name o ho
    have hundefined := halone.not_defined_of_occurrence ho
    have htags : other.tags.lookup name = none :=
      hother.lookup_tags_of_untagged (untagged_of_ne (Parts.fst_ne_of_lookup hundefined))
    simp only [contextOver, List.findSome?_cons, htags]
  · intro p hp name hname
    have hundefined := halone.not_defined_of_callsSuper (.inr ⟨p, hp, hname⟩)
    have hslots : other.parts.slotLists.reverse.lookup name = none := by
      rw [other.lookup_slotLists, Reading.slots?_of_undefined hundefined]
    simp only [contextOver, List.findSome?_cons, hslots]

/-! ## Expanding in another chain -/

/-- the super calls of parts are found alike above either level -/
def Parts.SupersAgree (ps : Parts) (owner owner' : List Reading) : Prop :=
  ∀ target ∈ ps.superTargets, findDefinition target owner'.tail = findDefinition target owner.tail

/-- what has a definition in one chain has the same one in the other, with super calls that are found alike -/
def FoundAlike (chain chain' : List Reading) : Prop :=
  ∀ ⦃name level d⦄, findDefinition name chain = some (level, d) →
    ∃ level', findDefinition name chain' = some (level', d) ∧ d.children.SupersAgree level level'

theorem Expands.transfer {chain chain' : List Reading} {prefixes : List String} (hfound : FoundAlike chain chain')
    {owner : List Reading} {ps : Parts} {text : String} (h : Expands chain prefixes owner ps text)
    {owner' : List Reading} (hsupers : ps.SupersAgree owner owner') : Expands chain' prefixes owner' ps text := by
  induction h generalizing owner' with
  | done => exact .done
  | text value _ ih => exact .text value (ih hsupers)
  | anonymous _ _ ihc ih =>
    refine .anonymous (ihc fun target ht => ?_) (ih fun target ht => ?_)
    · exact hsupers target (List.mem_append_left _ ht)
    · exact hsupers target (List.mem_append_right _ ht)
  | named hd _ _ ihc ih =>
    obtain ⟨level', hd', hchildren⟩ := hfound hd
    exact .named hd' (ihc hchildren) (ih fun target ht => hsupers target (List.mem_append_right _ ht))
  | superCall hd _ _ ihc ih =>
    have hd' := (hsupers _ List.mem_cons_self).trans hd
    exact .superCall hd' (ihc fun _ _ => rfl) (ih fun target ht => hsupers target (List.mem_cons_of_mem _ ht))

/-! ## Two extensions -/

section

variable {r : Reading} {rs : List Reading} {name : String}

theorem findDefinition_of_defined {d : Definition} (h : r.definition? name = some d) :
    findDefinition name (r :: rs) = some (r :: rs, d) := by
  simp only [findDefinition, h]

theorem findDefinition_of_undefined (h : r.definition? name = none) :
    findDefinition name (r :: rs) = findDefinition name rs := by
  simp only [findDefinition, h]

end

/-- a definition has only super calls that its document has -/
theorem Reading.callsSuper_of_definition? {r : Reading} {name target : String} {d : Definition}
    (h : r.definition? name = some d) (ht : target ∈ d.children.superTargets) : r.CallsSuper target :=
  .inl ((Parts.mem_definitions (Reading.mem_of_definition? h)).2 target ht)

/-- the order of two readings that leave each other alone does not matter for what is found -/
theorem foundAlike_swap {rs : List Reading} {r₁ r₂ r₁' r₂' : Reading} (hparts₁ : r₁'.parts = r₁.parts)
    (hparts₂ : r₂'.parts = r₂.parts) (h₁ : r₁.LeavesAlone r₂) (h₂ : r₂.LeavesAlone r₁) :
    FoundAlike (r₂' :: r₁ :: rs) (r₁' :: r₂ :: rs) := by
  have hsame₁ (n : String) : r₁'.definition? n = r₁.definition? n := by simp only [Reading.definition?, hparts₁]
  have hsame₂ (n : String) : r₂'.definition? n = r₂.definition? n := by simp only [Reading.definition?, hparts₂]
  intro name level d hd
  cases hdef₂ : r₂.definition? name with
  | some d₂ =>
    -- the definition is the last document's, and its super calls do not see the other one
    rw [findDefinition_of_defined ((hsame₂ name).trans hdef₂)] at hd
    cases hd
    have hnone := (hsame₁ name).trans (h₁.definition?_eq_none hdef₂)
    refine ⟨r₂ :: rs, ?_, ?_⟩
    · rw [findDefinition_of_undefined hnone, findDefinition_of_defined hdef₂]
    · intro target ht
      have hcalls := Reading.callsSuper_of_definition? hdef₂ ht
      exact (findDefinition_of_undefined (h₂.not_defined_of_callsSuper hcalls)).symm
  | none =>
    rw [findDefinition_of_undefined ((hsame₂ name).trans hdef₂)] at hd
    cases hdef₁ : r₁.definition? name with
    | some d₁ =>
      rw [findDefinition_of_defined hdef₁] at hd
      cases hd
      refine ⟨r₁' :: r₂ :: rs, findDefinition_of_defined ((hsame₁ name).trans hdef₁), ?_⟩
      intro target ht
      have hcalls := Reading.callsSuper_of_definition? hdef₁ ht
      exact findDefinition_of_undefined (h₁.not_defined_of_callsSuper hcalls)
    | none =>
      rw [findDefinition_of_undefined hdef₁] at hd
      refine ⟨level, ?_, fun _ _ => rfl⟩
      rw [findDefinition_of_undefined ((hsame₁ name).trans hdef₁), findDefinition_of_undefined hdef₂, hd]

/-- **Extensions that leave each other alone commute.** Two documents with the same block names, of which neither
defines or calls by a super call what the other one defines, can be put on top of a template in either order. Where both
orders compile, they are rendered to the same text. -/
theorem extensions_commute {ds : List Document} {d₁ d₂ : Document} {t t₁ t₂ t₁₂ t₂₁ : Template} {rs : List Reading}
    {r₁ r₂ : Reading} (h : Compiled ds (some t)) (hr₁ : ReadsAll (d₁ :: ds) (r₁ :: rs))
    (hr₂ : ReadsAll (d₂ :: ds) (r₂ :: rs)) (hnames : d₁.blockNames = d₂.blockNames) (halone₁ : r₁.LeavesAlone r₂)
    (halone₂ : r₂.LeavesAlone r₁)
    (h₁ : (compile d₁.block (some t) d₁.options).result = .ok t₁)
    (h₂ : (compile d₂.block (some t) d₂.options).result = .ok t₂)
    (h₁₂ : (compile d₂.block (some t₁) d₂.options).result = .ok t₁₂)
    (h₂₁ : (compile d₁.block (some t₂) d₁.options).result = .ok t₂₁) :
    ∃ text, t₁₂.render = .ok text ∧ t₂₁.render = .ok text := by
  have hcompiled₁ : Compiled (d₁ :: ds) (some t₁) := .document d₁ h h₁
  have hcompiled₂ : Compiled (d₂ :: ds) (some t₂) := .document d₂ h h₂
  have hcompiled₁₂ : Compiled (d₂ :: d₁ :: ds) (some t₁₂) := .document d₂ hcompiled₁ h₁₂
  have hcompiled₂₁ : Compiled (d₁ :: d₂ :: ds) (some t₂₁) := .document d₁ hcompiled₂ h₂₁
  obtain ⟨text, htext⟩ := render_of_compiled hcompiled₁₂
  obtain ⟨text', htext'⟩ := render_of_compiled hcompiled₂₁
  obtain ⟨leaf, rs₁₂, root, hreads, hroot, hexpands⟩ := expansion_of_render hcompiled₁₂ htext
  have hsame : Expansion (d₁ :: d₂ :: ds) text := by
    cases hr₁ with
    | @document _ _ tags₁ parts₁ _ hrs hread₁ =>
    cases hr₂ with
    | @document _ _ tags₂ parts₂ _ _ hread₂ =>
    have hreads₁₂ := ReadsAll.document (.document hrs hread₁) (hread₂.on_top hread₁ halone₂)
    have hreads₂₁ := ReadsAll.document (.document hrs hread₂) (hread₁.on_top hread₂ halone₁)
    cases hreads.unique hreads₁₂
    obtain ⟨r, rs, rfl⟩ : ∃ r rs', rs = r :: rs' := by
      cases h with
      | document _ _ _ =>
        cases hrs with
        | document _ _ => exact ⟨_, _, rfl⟩
    refine ⟨_, _, root, hreads₂₁, by simpa only [List.getLast?_cons_cons] using hroot, ?_⟩
    simp only [prefixesOver, hnames] at hexpands ⊢
    refine hexpands.transfer ?_ fun _ _ => rfl
    exact foundAlike_swap rfl rfl halone₁ halone₂
  exact ⟨text, htext, hsame.unique (expansion_of_render hcompiled₂₁ htext') ▸ htext'⟩

/-- two elements in another one -/
def pair : Document where
  block := ⟨some "b", [.element ⟨false, some "div", none, none,
    some [.element ⟨false, some "p", some [some "left"], some ⟨none, [⟨"id", some "l"⟩]⟩, some [.text "l"]⟩,
      .element ⟨false, some "p", some [some "right"], none, some [.text "r"]⟩]⟩]⟩

/-- more for the one element -/
def leftAgain : Document where
  block := ⟨some "c", [.element ⟨false, none, some [some "left"], some ⟨some {}, [⟨"title", some "a"⟩]⟩,
    some [.superCall {}, .text "1"]⟩]⟩

/-- another text for the other element -/
def rightAgain : Document where
  block := ⟨some "c", [.element ⟨false, none, some [some "right"], none, some [.text "2"]⟩]⟩

theorem pair_leavesAlone : ∃ rs r₁ r₂, ReadsAll [leftAgain, pair] (r₁ :: rs) ∧ ReadsAll [rightAgain, pair] (r₂ :: rs) ∧
    r₁.LeavesAlone r₂ ∧ r₂.LeavesAlone r₁ := by
  have hpair : ∃ rs, ReadsAll [pair] rs :=
    ⟨_, .document .none (.anonymous rfl rfl (.named rfl rfl (.text "l" .done) (.named rfl rfl (.text "r" .done) .done))
      .done)⟩
  obtain ⟨rs, hrs⟩ := hpair
  refine ⟨rs, _, _, .document hrs (.named rfl rfl (.superCall rfl (.text "1" .done)) .done),
    .document hrs (.named rfl rfl (.text "2" .done) .done), ?_, ?_⟩
  · intro name hname
    obtain rfl : name = "right" := by simpa [Reading.definition?, Parts.definitions, List.lookup_isSome_iff] using hname
    refine ⟨rfl, ?_⟩
    simp [Reading.CallsSuper, Parts.superTargets, Parts.occurrences, Element.superTarget?, Element.name]
  · intro name hname
    obtain rfl : name = "left" := by simpa [Reading.definition?, Parts.definitions, List.lookup_isSome_iff] using hname
    refine ⟨rfl, ?_⟩
    simp [Reading.CallsSuper, Parts.superTargets, Parts.occurrences, Element.superTarget?, Element.name]

theorem pair_commutes :
    ∃ t t₁ t₂ t₁₂ t₂₁, Compiled [pair] (some t) ∧
      (compile leftAgain.block (some t) leftAgain.options).result = .ok t₁ ∧
      (compile rightAgain.block (some t) rightAgain.options).result = .ok t₂ ∧
      (compile rightAgain.block (some t₁) rightAgain.options).result = .ok t₁₂ ∧
      (compile leftAgain.block (some t₂) leftAgain.options).result = .ok t₂₁ ∧
      t₁₂.render = t₂₁.render ∧
      t₁₂.render = .ok ("<div><p class=\"c__left c__left b__left\" id=\"l\" title=\"a\">l1</p>" ++
        "<p class=\"c__right c__right b__right\">2</p></div>") := by
  obtain ⟨t, ht⟩ : ∃ t, (compile pair.block none pair.options).result = .ok t := ⟨_, rfl⟩
  obtain ⟨t₁, h₁, t₂, h₂, t₁₂, h₁₂, t₂₁, h₂₁, hrender⟩ :
      ∃ t₁, (compile leftAgain.block (some t) leftAgain.options).result = .ok t₁ ∧
        ∃ t₂, (compile rightAgain.block (some t) rightAgain.options).result = .ok t₂ ∧
        ∃ t₁₂, (compile rightAgain.block (some t₁) rightAgain.options).result = .ok t₁₂ ∧
        ∃ t₂₁, (compile leftAgain.block (some t₂) leftAgain.options).result = .ok t₂₁ ∧
        t₁₂.render = .ok ("<div><p class=\"c__left c__left b__left\" id=\"l\" title=\"a\">l1</p>" ++
          "<p class=\"c__right c__right b__right\">2</p></div>") := by
    cases ht
    exact ⟨_, rfl, _, rfl, _, rfl, _, rfl, rfl⟩
  have hcompiled : Compiled [pair] (some t) := .document _ .none ht
  obtain ⟨rs, r₁, r₂, hr₁, hr₂, halone₁, halone₂⟩ := pair_leavesAlone
  obtain ⟨text, htext₁₂, htext₂₁⟩ :=
    extensions_commute hcompiled hr₁ hr₂ rfl halone₁ halone₂ h₁ h₂ h₁₂ h₂₁
  exact ⟨t, t₁, t₂, t₁₂, t₂₁, hcompiled, h₁, h₂, h₁₂, h₂₁, htext₁₂.trans htext₂₁.symm, hrender⟩

end BlockTemplates
