/-
Plain nodes, in which every element stands for its content: elements with tags do, and sections. They are read along the
tree, and an element with a name is read once for each time that it is written. So the reading of a part of a document
depends on what stands before it only through the tags that names have by then.

Main statements: `plain_of_sections`, `reads_element_iff` (an element and what is behind it), `reads_append_iff` and
`Reads.elsewhere` (nodes without elements of a name read the same whatever tag that name has).
-/
import BlockTemplates.Proofs.Compiling.Sections
import BlockTemplates.Proofs.Markup.Places
import BlockTemplates.Proofs.Reading.Occurrences

namespace BlockTemplates

open Html Markup Render

/-! ## Plain nodes -/

/-- every element stands for its content -/
def Context.Plain (ctx : Context) (ns : List Node) : Prop :=
  ∀ e ∈ elementsIn ns, ∀ tags, ctx.inner e (ctx.tagOf tags e) = some (e.content.getD [])

section

variable {ctx : Context} {ns ns' : List Node}

theorem plain_append : ctx.Plain (ns ++ ns') ↔ ctx.Plain ns ∧ ctx.Plain ns' := by
  simp only [Context.Plain, elementsIn_append, List.forall_mem_append]

theorem plain_element {e : Element} :
    ctx.Plain (.element e :: ns) ↔
      (∀ tags, ctx.inner e (ctx.tagOf tags e) = some (e.content.getD [])) ∧ ctx.Plain (e.content.getD []) ∧
        ctx.Plain ns := by
  simp only [Context.Plain, elementsIn_element, List.forall_mem_cons, List.forall_mem_append]

theorem plain_of_fill {hole : Hole} (h : ctx.Plain (hole.fill ns)) : ctx.Plain ns :=
  fun e he => h e (mem_elementsIn.2 (mem_allNodes_fill hole (mem_elementsIn.1 he)))

theorem plain_of_no_helpers (h : ∀ e ∈ elementsIn ns, e.isHelper = false) : ctx.Plain ns := by
  intro e he tags
  simp [Context.inner, h e he]

theorem helpersAreSections_iff :
    HelpersAreSections ns ↔ ∀ e ∈ elementsIn ns, e.isHelper = true → e.tagName = some "section" := by
  constructor
  · intro h
    induction h with
    | nil => simp
    | text _ ih => simpa using ih
    | comment _ ih => simpa using ih
    | superCall _ ih => simpa using ih
    | element he _ _ ihc ih =>
      simp only [elementsIn_element, List.forall_mem_cons, List.forall_mem_append]
      exact ⟨he, ihc, ih⟩
  · intro h
    induction ns using nodes_induction with
    | nil => exact .nil
    | text value ns ih => exact .text (ih (by simpa using h))
    | comment value multiline ns ih => exact .comment (ih (by simpa using h))
    | superCall call ns ih => exact .superCall (ih (by simpa using h))
    | element e ns ihc ih =>
      simp only [elementsIn_element, List.forall_mem_cons, List.forall_mem_append] at h
      exact .element h.1 (ihc h.2.1) (ih h.2.2)

theorem plain_of_sections (hsection : ctx.helpers.find? "section" = some sectionHelper) (h : HelpersAreSections ns) :
    ctx.Plain ns := by
  intro e he tags
  cases hh : e.isHelper with
  | false => simp [Context.inner, hh]
  | true =>
    have htag := helpersAreSections_iff.1 h e he hh
    simp [Context.inner, hh, Context.tagOf_of_tagName htag, hsection, sectionHelper]

end

/-! ## Reading along the tree -/

/-- the element as it is read behind others -/
def Context.occurrence (ctx : Context) (tags : Tags) (e : Element) : Occurrence where
  element := e
  tag := ctx.tagOf tags e
  slots := ctx.slotsOf e

/-- an element with its content, before other parts -/
def Occurrence.placed (o : Occurrence) (children rest : Parts) : Parts :=
  match o.element.name with
  | some name => .named name o children rest
  | none => if o.element.isHelper then children.append rest else .anonymous o children rest

section

variable {o : Occurrence} {children rest : Parts}

theorem placed_of_name {name : String} (hn : o.element.name = some name) :
    o.placed children rest = .named name o children rest := by
  simp only [Occurrence.placed, hn]

theorem placed_of_tags (hn : o.element.name = none) (hh : o.element.isHelper = false) :
    o.placed children rest = .anonymous o children rest := by
  simp only [Occurrence.placed, hn, hh, Bool.false_eq_true, if_false]

theorem placed_of_helper (hn : o.element.name = none) (hh : o.element.isHelper = true) :
    o.placed children rest = children.append rest := by
  simp only [Occurrence.placed, hn, hh, if_true]

end

section

variable {ctx : Context} {within : Option String} {tags tags₂ : Tags} {ns ns' : List Node} {ps : Parts}

theorem reads_element_iff {e : Element} (he : ∀ tags, ctx.inner e (ctx.tagOf tags e) = some (e.content.getD [])) :
    Reads ctx within tags (.element e :: ns) tags₂ ps ↔
      ∃ tags₁ children rest, Reads ctx (e.name <|> within) (tags.after e) (e.content.getD []) tags₁ children ∧
        Reads ctx within tags₁ ns tags₂ rest ∧ ps = (ctx.occurrence tags e).placed children rest := by
  have htagOf (hn : e.name = none) : ctx.tagOf tags e = e.tagName := by simp [Context.tagOf, hn]
  constructor
  · intro h
    cases h with
    | named hn hi hc hr =>
      cases (he tags).symm.trans hi
      rw [hn]
      exact ⟨_, _, _, hc, hr, (placed_of_name hn).symm⟩
    | anonymous hn hh hc hr =>
      rw [hn, Tags.after_of_anonymous hn]
      refine ⟨_, _, _, hc, hr, ?_⟩
      rw [placed_of_tags hn hh, Context.occurrence, htagOf hn]
    | spliced hn hh hi hc hr =>
      cases (he tags).symm.trans ((htagOf hn).symm ▸ hi)
      rw [hn, Tags.after_of_anonymous hn]
      exact ⟨_, _, _, hc, hr, (placed_of_helper hn hh).symm⟩
  · rintro ⟨tags₁, children, rest, hc, hr, rfl⟩
    cases hn : e.name with
    | some name =>
      rw [hn] at hc
      rw [placed_of_name hn]
      exact .named hn (he tags) hc hr
    | none =>
      rw [hn, Tags.after_of_anonymous hn] at hc
      cases hh : e.isHelper with
      | true =>
        have hi := he tags
        rw [htagOf hn] at hi
        rw [placed_of_helper hn hh]
        exact .spliced hn hh hi hc hr
      | false =>
        rw [placed_of_tags hn hh, Context.occurrence, htagOf hn]
        exact .anonymous hn hh hc hr

theorem reads_append_iff :
    Reads ctx within tags (ns ++ ns') tags₂ ps ↔
      ∃ tags₁ qs us, Reads ctx within tags ns tags₁ qs ∧ Reads ctx within tags₁ ns' tags₂ us ∧ ps = qs.append us := by
  constructor
  · intro h
    induction ns generalizing tags ps with
    | nil => exact ⟨_, _, _, .done, h, rfl⟩
    | cons n ns ih =>
      cases h with
      | text value h =>
        obtain ⟨tags₁, qs, us, hqs, hus, rfl⟩ := ih h
        exact ⟨_, _, _, .text value hqs, hus, rfl⟩
      | comment value multiline h =>
        obtain ⟨tags₁, qs, us, hqs, hus, rfl⟩ := ih h
        exact ⟨_, _, _, .comment value multiline hqs, hus, rfl⟩
      | superCall ht h =>
        obtain ⟨tags₁, qs, us, hqs, hus, rfl⟩ := ih h
        exact ⟨_, _, _, .superCall ht hqs, hus, rfl⟩
      | named hn hi hc h =>
        obtain ⟨tags₁, qs, us, hqs, hus, rfl⟩ := ih h
        exact ⟨_, _, _, .named hn hi hc hqs, hus, rfl⟩
      | anonymous hn hh hc h =>
        obtain ⟨tags₁, qs, us, hqs, hus, rfl⟩ := ih h
        exact ⟨_, _, _, .anonymous hn hh hc hqs, hus, rfl⟩
      | spliced hn hh hi hc h =>
        obtain ⟨tags₁, qs, us, hqs, hus, rfl⟩ := ih h
        exact ⟨_, _, _, .spliced hn hh hi hc hqs, hus, (Parts.append_assoc _ _ _).symm⟩
  · rintro ⟨tags₁, qs, us, hqs, hus, rfl⟩
    exact hqs.append hus

theorem mem_occurrences_placed {o : Occurrence} {children rest : Parts} {p : Option String × Occurrence}
    (h : p ∈ (o.placed children rest).occurrences) :
    p = (o.element.name, o) ∨ p ∈ children.occurrences ∨ p ∈ rest.occurrences := by
  unfold Occurrence.placed at h
  split at h
  · rename_i hn
    simpa [Parts.occurrences, hn] using h
  · rename_i hn
    split at h
    · simp only [Parts.occurrences_append, List.mem_append] at h
      exact .inr h
    · simpa [Parts.occurrences, hn] using h

/-- what plain nodes are read as are the elements in them -/
theorem Reads.mem_elementsIn (h : Reads ctx within tags ns tags₂ ps) (hplain : ctx.Plain ns) :
    ∀ p ∈ ps.occurrences, p.1 = p.2.element.name ∧ p.2.element ∈ elementsIn ns := by
  induction ns using nodes_induction generalizing within tags tags₂ ps with
  | nil =>
    cases h
    simp [Parts.occurrences]
  | text value ns ih =>
    cases h with
    | text _ h => simpa [Parts.occurrences] using ih h (by simpa [Context.Plain] using hplain)
  | comment value multiline ns ih =>
    cases h with
    | comment _ _ h => simpa using ih h (by simpa [Context.Plain] using hplain)
  | superCall call ns ih =>
    cases h with
    | superCall _ h => simpa [Parts.occurrences] using ih h (by simpa [Context.Plain] using hplain)
  | element e ns ihc ih =>
    obtain ⟨he, hcontent, hbehind⟩ := plain_element.1 hplain
    obtain ⟨tags₁, children, rest, hc, hr, rfl⟩ := (reads_element_iff he).1 h
    intro p hp
    rw [elementsIn_element, List.mem_cons, List.mem_append]
    rcases mem_occurrences_placed hp with rfl | hp | hp
    · exact ⟨rfl, .inl rfl⟩
    · obtain ⟨hname, hmem⟩ := ihc hc hcontent p hp
      exact ⟨hname, .inr (.inl hmem)⟩
    · obtain ⟨hname, hmem⟩ := ih hr hbehind p hp
      exact ⟨hname, .inr (.inr hmem)⟩

end

/-! ## Reading elsewhere -/

/-- the tags are the same, but for that of the name `lost` if there is one -/
def Tags.AgreeBut (lost : Option String) (tags tags' : Tags) : Prop :=
  match lost with
  | none => tags' = tags
  | some n => ∀ name, name ≠ n → tags'.lookup name = tags.lookup name

section

variable {lost : Option String} {tags tags' : Tags}

theorem Tags.AgreeBut.refl (tags : Tags) : tags.AgreeBut lost tags := by
  cases lost with
  | none => rfl
  | some n => exact fun _ _ => rfl

theorem Tags.AgreeBut.after (h : tags.AgreeBut lost tags') (e : Element) :
    (tags.after e).AgreeBut lost (tags'.after e) := by
  cases lost with
  | none => exact congrArg (Tags.after · e) h
  | some n =>
    intro name hname
    rw [lookup_after, lookup_after, h name hname]

theorem Tags.AgreeBut.tagOf (h : tags.AgreeBut lost tags') (ctx : Context) {e : Element}
    (he : ∀ n ∈ lost, e.name ≠ some n) : ctx.tagOf tags' e = ctx.tagOf tags e := by
  cases lost with
  | none =>
    cases h
    rfl
  | some n =>
    rw [Context.tagOf_eq, Context.tagOf_eq]
    cases hn : e.name with
    | none => rfl
    | some name =>
      have hne : name ≠ n := fun heq => he n rfl (heq ▸ hn)
      rw [Option.bind_some, Option.bind_some, h name hne]

end

/-- nodes without elements of a name read the same whatever tag that name has, and inside any named element if they do
not call it -/
theorem Reads.elsewhere {ctx : Context} {lost within within' : Option String} {tags tags' tags₁ : Tags} {ns : List Node}
    {ps : Parts} (h : Reads ctx within tags ns tags₁ ps) (hplain : ctx.Plain ns)
    (hnames : ∀ e ∈ elementsIn ns, ∀ n ∈ lost, e.name ≠ some n)
    (hwithin : within' = within ∨ ∀ call, Node.superCall call ∉ allNodes ns) (htags : tags.AgreeBut lost tags') :
    ∃ tags₁', Reads ctx within' tags' ns tags₁' ps ∧ tags₁.AgreeBut lost tags₁' := by
  induction ns using nodes_induction generalizing within within' tags tags' tags₁ ps with
  | nil =>
    cases h
    exact ⟨_, .done, htags⟩
  | text value ns ih =>
    cases h with
    | text _ h =>
      simp only [Context.Plain, elementsIn_text] at hplain hnames
      have hwithin := hwithin.imp_right fun hno call hmem => hno call (List.mem_append_right _ hmem)
      obtain ⟨tags₁', h', htags₁⟩ := ih h hplain hnames hwithin htags
      exact ⟨tags₁', .text value h', htags₁⟩
  | comment value multiline ns ih =>
    cases h with
    | comment _ _ h =>
      simp only [Context.Plain, elementsIn_comment] at hplain hnames
      have hwithin := hwithin.imp_right fun hno call hmem => hno call (List.mem_append_right _ hmem)
      obtain ⟨tags₁', h', htags₁⟩ := ih h hplain hnames hwithin htags
      exact ⟨tags₁', .comment value multiline h', htags₁⟩
  | superCall call ns ih =>
    cases h with
    | superCall ht h =>
      simp only [Context.Plain, elementsIn_superCall] at hplain hnames
      rcases hwithin with rfl | hno
      · obtain ⟨tags₁', h', htags₁⟩ := ih h hplain hnames (.inl rfl) htags
        exact ⟨tags₁', .superCall ht h', htags₁⟩
      · exact absurd (by simp [allNodes, Node.all]) (hno call)
  | element e ns ihc ih =>
    obtain ⟨he, hcontent, hbehind⟩ := plain_element.1 hplain
    obtain ⟨tags₁, children, rest, hc, hr, rfl⟩ := (reads_element_iff he).1 h
    simp only [elementsIn_element, List.forall_mem_cons, List.forall_mem_append] at hnames
    obtain ⟨hname, hinside, hafter⟩ := hnames
    rw [allNodes_element] at hwithin
    have hwithinContent : (e.name <|> within') = (e.name <|> within) ∨
        ∀ call, Node.superCall call ∉ allNodes (e.content.getD []) := by
      rcases hwithin with rfl | hno
      · exact .inl rfl
      · exact .inr fun call hmem => hno call (List.mem_cons_of_mem _ (List.mem_append_left _ hmem))
    have hwithinBehind := hwithin.imp_right fun hno call hmem =>
      hno call (List.mem_cons_of_mem _ (List.mem_append_right _ hmem))
    obtain ⟨between, hc', hbetween⟩ := ihc hc hcontent hinside hwithinContent (htags.after e)
    obtain ⟨tags₁', hr', htags₁⟩ := ih hr hbehind hafter hwithinBehind hbetween
    have hoccurrence : ctx.occurrence tags' e = ctx.occurrence tags e := by
      simp only [Context.occurrence, htags.tagOf ctx hname]
    exact ⟨tags₁', (reads_element_iff he).2 ⟨between, children, rest, hc', hr', by rw [hoccurrence]⟩, htags₁⟩

end BlockTemplates
