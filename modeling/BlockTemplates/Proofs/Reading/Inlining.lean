/-
Nodes in the place of other nodes. Where a part of a document gives way to one that is read as the same parts, or as the
same but for an element that is written where it stands and no longer defined, so does the whole document: the elements
around it are the same but for what is written in them.

Main statements: `Parts.Inlined.append`, `Parts.Inlined.lookup` (all other names keep their definitions) and
`Context.Replaces.fill` (from nodes to a document with them).
-/
import BlockTemplates.Proofs.Reading.PlainContent
import BlockTemplates.Proofs.Rendering.Expansion

namespace BlockTemplates

open Html Markup Render

/-! ## Elements with other content -/

/-- elements that are the same but for their content and their name; if `exact`, named elements with tags agree on
whether they have any content -/
structure Occurrence.Resembles (exact : Prop) (o o' : Occurrence) : Prop where
  isHelper : o'.element.isHelper = o.element.isHelper
  classNames : o'.element.classNames = o.element.classNames
  tag : o'.tag = o.tag
  slots : o'.slots = o.slots
  braces : o'.element.content.isSome = o.element.content.isSome
  filled : exact → o.element.name.isSome → o.element.isHelper = false →
    (o'.element.content.getD []).isEmpty = (o.element.content.getD []).isEmpty

namespace Occurrence.Resembles

variable {exact : Prop} {o o' : Occurrence}

theorem refl (exact : Prop) (o : Occurrence) : Resembles exact o o := ⟨rfl, rfl, rfl, rfl, rfl, fun _ _ _ => rfl⟩

variable (h : Resembles exact o o')
include h

theorem tagName : o'.tagName = o.tagName := congrArg (·.getD defaultTag) h.tag

theorem opening (prefixes : List String) : o'.opening prefixes = o.opening prefixes := by
  unfold Occurrence.opening
  rw [h.tagName, h.slots, h.classNames]

theorem closing : o'.closing = o.closing := by
  unfold Occurrence.closing
  rw [h.tagName, h.braces]

theorem around (prefixes : List String) (content : String) : o'.around prefixes content = o.around prefixes content := by
  unfold Occurrence.around
  rw [h.isHelper, h.opening, h.closing]

theorem openingOps : o'.openingOps = o.openingOps := by
  unfold Occurrence.openingOps
  rw [h.tagName, h.slots, h.classNames]

theorem closingOps : o'.closingOps = o.closingOps := by
  unfold Occurrence.closingOps
  rw [h.tagName, h.braces]

theorem renderOps (name : String) (hfilled : o.element.isHelper = false →
      (o'.element.content.getD []).isEmpty = (o.element.content.getD []).isEmpty) :
    o'.renderOps name = o.renderOps name := by
  unfold Occurrence.renderOps
  rw [h.isHelper, h.openingOps, h.closingOps]
  split
  · rfl
  · rename_i hh
    rw [hfilled (by simpa using hh)]

end Occurrence.Resembles

/-! ## Parts with a definition where it stands -/

/-- the same parts, with elements that resemble each other, except that the element that the definition `lost` belongs to
is written without its name, or gives way to its content if it is a helper -/
inductive Parts.Inlined (exact : Prop) (lost : Option (String × Definition)) : Parts → Parts → Prop
  | done : Inlined exact lost .done .done
  | text {ps qs} (value : String) : Inlined exact lost ps qs → Inlined exact lost (.text value ps) (.text value qs)
  | superCall {ps qs} (target : String) :
    Inlined exact lost ps qs → Inlined exact lost (.superCall target ps) (.superCall target qs)
  | anonymous {o o' children children' ps qs} :
    o.Resembles exact o' → Inlined exact lost children children' → Inlined exact lost ps qs →
      Inlined exact lost (.anonymous o children ps) (.anonymous o' children' qs)
  | named {name o o' children children' ps qs} : (∀ p ∈ lost, name ≠ p.1) → o.Resembles exact o' →
    Inlined exact lost children children' → Inlined exact lost ps qs →
      Inlined exact lost (.named name o children ps) (.named name o' children' qs)
  | unnamed {name o o' children children' ps qs} : lost = some (name, ⟨o, children⟩) → o.element.isHelper = false →
    o.Resembles exact o' → Inlined exact lost children children' → Inlined exact lost ps qs →
      Inlined exact lost (.named name o children ps) (.anonymous o' children' qs)
  | opened {name o children children' ps qs} : lost = some (name, ⟨o, children⟩) → o.element.isHelper = true →
    Inlined exact lost children children' → Inlined exact lost ps qs →
      Inlined exact lost (.named name o children ps) (children'.append qs)

/-- definitions of elements that resemble each other, with contents that are the same but for `lost` -/
def Definition.Inlined (exact : Prop) (lost : Option (String × Definition)) (d d' : Definition) : Prop :=
  d.occurrence.Resembles exact d'.occurrence ∧ d.children.Inlined exact lost d'.children

namespace Parts.Inlined

variable {exact : Prop} {lost : Option (String × Definition)} {ps qs us vs : Parts}

theorem append (h : Inlined exact lost ps qs) (h' : Inlined exact lost us vs) :
    Inlined exact lost (ps.append us) (qs.append vs) := by
  induction h with
  | done => exact h'
  | text value _ ih => exact .text value ih
  | superCall target _ ih => exact .superCall target ih
  | anonymous ho hc _ _ ih => exact .anonymous ho hc ih
  | named hn ho hc _ _ ih => exact .named hn ho hc ih
  | unnamed hl hh ho hc _ _ ih => exact .unnamed hl hh ho hc ih
  | opened hl hh hc _ _ ih =>
    rw [Parts.append_assoc]
    exact .opened hl hh hc ih

/-- parts are the same as themselves where the name that is lost does not occur -/
theorem refl (h : ∀ p ∈ ps.occurrences, ∀ l ∈ lost, p.1 ≠ some l.1) : Inlined exact lost ps ps := by
  induction ps with
  | done => exact .done
  | text value rest ih => exact .text value (ih h)
  | anonymous o children rest ihc ih =>
    simp only [Parts.occurrences, List.forall_mem_cons, List.forall_mem_append] at h
    exact .anonymous (.refl exact o) (ihc h.2.1) (ih h.2.2)
  | named name o children rest ihc ih =>
    simp only [Parts.occurrences, List.forall_mem_cons, List.forall_mem_append] at h
    exact .named (fun l hl heq => h.1 l hl (congrArg some heq)) (.refl exact o) (ihc h.2.1) (ih h.2.2)
  | superCall target rest ih => exact .superCall target (ih h)

end Parts.Inlined

/-! ## Definitions -/

theorem lookup_reverse_append {α : Type} (name : String) (xs ys : List (String × α)) :
    (xs ++ ys).reverse.lookup name = (ys.reverse.lookup name).or (xs.reverse.lookup name) := by
  rw [List.reverse_append, List.lookup_append]

theorem lookup_reverse_cons_of_ne {α : Type} {name other : String} (h : name ≠ other) (a : α)
    (xs : List (String × α)) : ((other, a) :: xs).reverse.lookup name = xs.reverse.lookup name := by
  rw [← List.singleton_append, lookup_reverse_append]
  simp [List.lookup_cons, beq_eq_false_iff_ne.2 h]

theorem rel_or {α β : Type} {R : α → β → Prop} {x x' : Option α} {y y' : Option β} (h : Option.Rel R x y)
    (h' : Option.Rel R x' y') : Option.Rel R (x.or x') (y.or y') := by
  cases h with
  | some h => exact .some h
  | none => exact h'

namespace Parts.Inlined

variable {exact : Prop} {lost : Option (String × Definition)} {ps qs : Parts}

/-- other names than the one that is lost keep their definitions -/
theorem lookup (h : Inlined exact lost ps qs) {name : String} (hname : ∀ l ∈ lost, name ≠ l.1) :
    Option.Rel (Definition.Inlined exact lost) (ps.definitions.reverse.lookup name)
      (qs.definitions.reverse.lookup name) := by
  induction h with
  | done => exact .none
  | text _ _ ih => exact ih
  | superCall _ _ ih => exact ih
  | anonymous _ _ _ ihc ih =>
    simp only [Parts.definitions, lookup_reverse_append]
    exact rel_or ih ihc
  | @named other o o' children children' ps qs _ ho hc _ ihc ih =>
    simp only [Parts.definitions, lookup_reverse_append]
    refine rel_or ?_ ihc
    by_cases heq : name = other
    · subst heq
      rw [← List.singleton_append, ← List.singleton_append (l := qs.definitions), lookup_reverse_append,
        lookup_reverse_append]
      have hd : Definition.Inlined exact lost ⟨o, children⟩ ⟨o', children'⟩ := ⟨ho, hc⟩
      exact rel_or ih (by simpa using hd)
    · rw [lookup_reverse_cons_of_ne heq, lookup_reverse_cons_of_ne heq]
      exact ih
  | unnamed hl _ _ _ _ ihc ih =>
    simp only [Parts.definitions, lookup_reverse_append, lookup_reverse_cons_of_ne (hname _ hl)]
    exact rel_or ih ihc
  | opened hl _ _ _ ihc ih =>
    simp only [Parts.definitions, Parts.definitions_append, lookup_reverse_append,
      lookup_reverse_cons_of_ne (hname _ hl)]
    exact rel_or ih ihc

/-- the name that is lost has one definition -/
theorem eq_of_mem_definitions (h : Inlined exact lost ps qs) {l p : String × Definition} (hl : lost = some l)
    (hp : p ∈ ps.definitions) (hname : p.1 = l.1) : p = l := by
  induction h with
  | done => contradiction
  | text _ _ ih => exact ih hp
  | superCall _ _ ih => exact ih hp
  | anonymous _ _ _ ihc ih =>
    rcases List.mem_append.1 hp with hp | hp
    · exact ihc hp
    · exact ih hp
  | named hn _ _ _ ihc ih =>
    rcases List.mem_append.1 hp with hp | hp
    · exact ihc hp
    · rcases List.mem_cons.1 hp with rfl | hp
      · exact absurd hname (hn l hl)
      · exact ih hp
  | unnamed hl' _ _ _ _ ihc ih =>
    rcases List.mem_append.1 hp with hp | hp
    · exact ihc hp
    · rcases List.mem_cons.1 hp with rfl | hp
      · exact Option.some.inj (hl'.symm.trans hl)
      · exact ih hp
  | opened hl' _ _ _ ihc ih =>
    rcases List.mem_append.1 hp with hp | hp
    · exact ihc hp
    · rcases List.mem_cons.1 hp with rfl | hp
      · exact Option.some.inj (hl'.symm.trans hl)
      · exact ih hp

/-- which is gone -/
theorem ne_of_mem_definitions (h : Inlined exact lost ps qs) {l p : String × Definition} (hl : lost = some l)
    (hp : p ∈ qs.definitions) : p.1 ≠ l.1 := by
  induction h with
  | done => contradiction
  | text _ _ ih => exact ih hp
  | superCall _ _ ih => exact ih hp
  | anonymous _ _ _ ihc ih =>
    rcases List.mem_append.1 hp with hp | hp
    · exact ihc hp
    · exact ih hp
  | named hn _ _ _ ihc ih =>
    rcases List.mem_append.1 hp with hp | hp
    · exact ihc hp
    · rcases List.mem_cons.1 hp with rfl | hp
      · exact hn l hl
      · exact ih hp
  | unnamed _ _ _ _ _ ihc ih =>
    rcases List.mem_append.1 hp with hp | hp
    · exact ihc hp
    · exact ih hp
  | opened _ _ _ _ ihc ih =>
    rw [Parts.definitions_append] at hp
    rcases List.mem_append.1 hp with hp | hp
    · exact ihc hp
    · exact ih hp

end Parts.Inlined

/-! ## Nodes in the place of others -/

/-- the nodes are read as the given parts and tags, but for the name `lost`, which they do not define -/
def Context.ReadsInlined (ctx : Context) (exact : Prop) (lost within : Option String) (tags : Tags) (nodes : List Node)
    (tags₁ : Tags) (ps : Parts) : Prop :=
  ∃ l tags₁' qs, l.map Prod.fst = lost ∧ (∀ p ∈ l, p ∈ ps.definitions) ∧ Reads ctx within tags nodes tags₁' qs ∧
    tags₁.AgreeBut lost tags₁' ∧ ps.Inlined exact l qs

/-- however the first nodes are read where the name `lost` has no tag, the others are read so but for that name -/
def Context.Replaces (ctx : Context) (exact : Prop) (lost : Option String) (nodes nodes' : List Node) : Prop :=
  ∀ ⦃within tags tags₁ ps⦄, (∀ n ∈ lost, tags.lookup n = none) → Reads ctx within tags nodes tags₁ ps →
    ctx.ReadsInlined exact lost within tags nodes' tags₁ ps

section

variable {ctx : Context} {exact : Prop} {lost : Option String} {ns ns' : List Node}

/-- nodes without elements of the name leave it without a tag, and are read as parts that are not changed -/
theorem Reads.unaffected {within : Option String} {tags tags₁ : Tags} {ps : Parts} (h : Reads ctx within tags ns tags₁ ps)
    (hplain : ctx.Plain ns) (hnames : ∀ e ∈ elementsIn ns, ∀ n ∈ lost, e.name ≠ some n) :
    (∀ n ∈ lost, tags₁.lookup n = tags.lookup n) ∧
      ∀ l : Option (String × Definition), l.map Prod.fst = lost → ps.Inlined exact l ps := by
  have hne : ∀ p ∈ ps.occurrences, ∀ n ∈ lost, p.1 ≠ some n := by
    intro p hp n hn
    obtain ⟨hname, hmem⟩ := h.mem_elementsIn hplain p hp
    exact hname ▸ hnames _ hmem n hn
  refine ⟨fun n hn => h.lookup_tags_of_untagged (untagged_of_ne fun p hp => hne p hp n hn), ?_⟩
  rintro l rfl
  exact .refl fun p hp q hq => hne p hp q.1 (Option.mem_map_of_mem Prod.fst hq)

/-- the content of a named element, if no other one in it has the name and nothing in it calls the content of another
level, is read the same where the element stands -/
theorem Reads.content_of_named {e : Element} {n : String} {within : Option String} {tags tags₁ : Tags} {ps : Parts}
    (h : Reads ctx within tags [.element e] tags₁ ps) (hn : e.name = some n) (hplain : ctx.Plain [.element e])
    (hothers : ∀ f ∈ elementsIn (e.content.getD []), f.name ≠ some n)
    (hcalls : ∀ call, Node.superCall call ∉ allNodes (e.content.getD [])) :
    ∃ children tags₁', ps = .named n (ctx.occurrence tags e) children .done ∧
      Reads ctx within tags (e.content.getD []) tags₁' children ∧ tags₁.AgreeBut (some n) tags₁' ∧
      ∀ l : Option (String × Definition), l.map Prod.fst = some n → children.Inlined exact l children := by
  obtain ⟨he, hcontent, -⟩ := plain_element.1 hplain
  obtain ⟨tags₂, children, _, hc, hr, rfl⟩ := (reads_element_iff he).1 h
  cases hr
  -- behind the element, only its name has another tag
  have hagree : (tags.after e).AgreeBut (some n) tags := by
    intro name hname
    rw [lookup_after, hn, if_neg (by simpa using Ne.symm hname), Option.or_none]
  have hnames : ∀ f ∈ elementsIn (e.content.getD []), ∀ m ∈ some n, f.name ≠ some m := by simpa using hothers
  obtain ⟨tags₁', hc', hagree'⟩ := hc.elsewhere hcontent hnames (.inr hcalls) hagree
  obtain ⟨-, hself⟩ := hc.unaffected hcontent hnames
  exact ⟨children, tags₁', placed_of_name hn, hc', hagree', hself⟩

/-- between other nodes that do not have the name -/
theorem Context.Replaces.between (h : ctx.Replaces exact lost ns ns') {before after : List Node}
    (hbefore : ctx.Plain before) (hafter : ctx.Plain after)
    (hnames : ∀ e ∈ elementsIn (before ++ after), ∀ n ∈ lost, e.name ≠ some n) :
    ctx.Replaces exact lost (before ++ (ns ++ after)) (before ++ (ns' ++ after)) := by
  intro within tags tags₁ ps hfree hreads
  rw [elementsIn_append, List.forall_mem_append] at hnames
  obtain ⟨hnamesBefore, hnamesAfter⟩ := hnames
  obtain ⟨tags₂, ps₁, _, hreads₁, hrest, rfl⟩ := reads_append_iff.1 hreads
  obtain ⟨tags₃, ps₂, ps₃, hreads₂, hreads₃, rfl⟩ := reads_append_iff.1 hrest
  obtain ⟨hkept, hself₁⟩ := hreads₁.unaffected hbefore hnamesBefore
  obtain ⟨l, tags₃', qs, hl, hmem, hqs, hagree, hinlined⟩ := h (fun n hn => (hkept n hn).trans (hfree n hn)) hreads₂
  obtain ⟨tags₁', hreads₃', hagree'⟩ := hreads₃.elsewhere hafter hnamesAfter (.inl rfl) hagree
  obtain ⟨-, hself₃⟩ := hreads₃.unaffected hafter hnamesAfter
  refine ⟨l, tags₁', ps₁.append (qs.append ps₃), hl, ?_, hreads₁.append (hqs.append hreads₃'), hagree',
    (hself₁ l hl).append (hinlined.append (hself₃ l hl))⟩
  intro p hp
  simp [Parts.definitions_append, hmem p hp]

theorem Parts.Inlined.placed {l : Option (String × Definition)} {o o' : Occurrence}
    {children children' rest rest' : Parts} (hname : o'.element.name = o.element.name)
    (hne : ∀ p ∈ l, o.element.name ≠ some p.1) (ho : o.Resembles exact o') (hc : children.Inlined exact l children')
    (hr : rest.Inlined exact l rest') : (o.placed children rest).Inlined exact l (o'.placed children' rest') := by
  unfold Occurrence.placed
  rw [hname, ho.isHelper]
  split
  · rename_i name hn
    exact .named (fun p hp heq => hne p hp (heq ▸ hn)) ho hc hr
  · split
    · exact hc.append hr
    · exact .anonymous ho hc hr

theorem mem_definitions_placed {o : Occurrence} {children rest : Parts} {p : String × Definition}
    (h : p ∈ children.definitions) : p ∈ (o.placed children rest).definitions := by
  unfold Occurrence.placed
  split
  · exact List.mem_append_left _ h
  · split
    · rw [Parts.definitions_append]
      exact List.mem_append_left _ h
    · exact List.mem_append_left _ h

/-- inside an element that does not have the name -/
theorem Context.Replaces.inElement (h : ctx.Replaces exact lost ns ns') {e : Element}
    (hplain : ctx.Plain [.element { e with content := some ns }])
    (hplain' : ctx.Plain [.element { e with content := some ns' }]) (hname : ∀ n ∈ lost, e.name ≠ some n)
    (hfilled : exact → e.name.isSome → e.isHelper = false → ns'.isEmpty = ns.isEmpty) :
    ctx.Replaces exact lost [.element { e with content := some ns }] [.element { e with content := some ns' }] := by
  intro within tags tags₁ ps hfree hreads
  obtain ⟨he, -⟩ := plain_element.1 hplain
  obtain ⟨he', -⟩ := plain_element.1 hplain'
  obtain ⟨tags₂, children, _, hc, hr, rfl⟩ := (reads_element_iff he).1 hreads
  cases hr
  have hfree' : ∀ n ∈ lost, (tags.after { e with content := some ns }).lookup n = none := by
    intro n hn
    rw [lookup_after, hfree n hn]
    exact if_neg (hname n hn)
  obtain ⟨l, tags₁', children', hl, hmem, hc', hagree, hinlined⟩ := h hfree' hc
  refine ⟨l, tags₁', _, hl, fun p hp => mem_definitions_placed (hmem p hp),
    (reads_element_iff he').2 ⟨tags₁', children', .done, hc', .done, rfl⟩, hagree, ?_⟩
  refine .placed rfl ?_ ⟨rfl, rfl, rfl, rfl, rfl, hfilled⟩ hinlined .done
  intro p hp
  exact hname p.1 (hl ▸ Option.mem_map_of_mem Prod.fst hp)

/-- **Replacing in place.** What replaces nodes does so in every hole around which the name does not occur. -/
theorem Context.Replaces.fill (h : ctx.Replaces exact lost ns ns') {hole : Hole} (hplain : ctx.Plain (hole.fill ns))
    (hplain' : ctx.Plain (hole.fill ns')) (hnames : ∀ e ∈ elementsIn (hole.fill []), ∀ n ∈ lost, e.name ≠ some n)
    (hns : ns ≠ []) (hfilled : exact → ns' ≠ [] ∨ hole.isOnlyContent = false) :
    ctx.Replaces exact lost (hole.fill ns) (hole.fill ns') := by
  induction hole with
  | among before after =>
    simp only [Hole.fill, plain_append] at hplain ⊢
    exact h.between hplain.1 hplain.2.2 hnames
  | inside before e hole after ih =>
    simp only [Hole.fill, ← List.singleton_append (l := after), plain_append] at hplain hplain' ⊢
    obtain ⟨hbefore, helement, hafter⟩ := hplain
    obtain ⟨-, helement', -⟩ := hplain'
    obtain ⟨-, hcontent, -⟩ := plain_element.1 helement
    obtain ⟨-, hcontent', -⟩ := plain_element.1 helement'
    simp only [Hole.fill, elementsIn_append, elementsIn_element, List.forall_mem_append, List.forall_mem_cons,
      Option.getD_some] at hnames
    obtain ⟨hnamesBefore, hname, hnamesInside, hnamesAfter⟩ := hnames
    have hfilled' : exact → ns' ≠ [] ∨ hole.isOnlyContent = false := by
      intro hexact
      refine (hfilled hexact).imp_right fun h => ?_
      cases hole with
      | among before after => rfl
      | inside => exact h
    refine ((ih hcontent hcontent' hnamesInside hfilled').inElement helement helement' hname ?_).between hbefore hafter ?_
    · intro hexact hnamed hh
      have hfilledHole : hole.fill ns' ≠ [] := by
        refine Hole.fill_ne_nil ((hfilled hexact).imp_right ?_)
        rintro honly rfl
        simp [Hole.isOnlyContent, hnamed, hh] at honly
      rw [List.isEmpty_eq_false_iff.2 (Hole.fill_ne_nil (.inl hns)), List.isEmpty_eq_false_iff.2 hfilledHole]
    · rw [elementsIn_append, List.forall_mem_append]
      exact ⟨hnamesBefore, hnamesAfter⟩

end

end BlockTemplates
