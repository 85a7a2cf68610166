/-
The tags that are written. Rendered markup is made of escaped texts and of the tags of elements that are markup. Such an
element has the tag that is written with it, or else the one that was first given to its name: by an element before it
in its own level, or in the nearest level above. Helpers give their own names where others give tags, so that a name
which was first given by a helper is written as a tag, if an element of the same name has none. The attributes of a tag
are named as those of elements are, but for the class.

Main statements: `ReadsAll.tag_at` (where the tag of an element is from), `ReadsAll.isAttributeIn` (where the names of its
attributes are from), `Expands.madeOf` (what markup is made of), `MadeOf.shows` (and how it is read) and `written_tags`.
-/
import BlockTemplates.Proofs.Rendering.MergedAttributes
import BlockTemplates.Proofs.Rendering.Nesting
import BlockTemplates.Proofs.Rendering.TagSequence

namespace BlockTemplates

open Html Markup Source

/-! ## Where tags are from -/

/-- what elements first give to a name where a tag stands -/
def firstTag (name : String) (os : List (Option String × Occurrence)) : Option String :=
  os.findSome? (given (·.element.tagName) name)

/-- the tag of an element behind those in `before` and below the levels `above`: its own, else the first one that its
name was given in its level before, else the first one in the nearest level that gives any -/
def tagBehind (before : List (Option String × Occurrence)) (above : List Reading) (name : Option String) (e : Element) :
    Option String :=
  e.tagName.or (name.bind fun name =>
    (firstTag name before).or (above.findSome? fun r => firstTag name r.parts.occurrences))

/-- the element is the first of its name to give it something where a tag stands, and that is `tag` -/
structure FirstGives (os : List (Option String × Occurrence)) (o : Occurrence) (tag : String) : Prop where
  tag : o.element.tagName = some tag
  first : ∃ before name after, os = before ++ (some name, o) :: after ∧ Untagged name before

theorem FirstGives.append {os : List (Option String × Occurrence)} {o : Occurrence} {tag : String}
    (h : FirstGives os o tag) (os' : List (Option String × Occurrence)) : FirstGives (os ++ os') o tag := by
  obtain ⟨before, name, after, rfl, hbefore⟩ := h.first
  exact ⟨h.tag, before, name, after ++ os', by simp, hbefore⟩

theorem exists_firstGives {name tag : String} {os : List (Option String × Occurrence)}
    (h : firstTag name os = some tag) : ∃ o, FirstGives os o tag := by
  obtain ⟨before, ⟨n, o⟩, after, hos, ho, hbefore⟩ := List.findSome?_eq_some_iff.1 h
  by_cases hn : n = some name
  · subst hn
    have htag : o.element.tagName = some tag := by simpa [given] using ho
    refine ⟨o, htag, before, name, after, hos, fun o' ho' => ?_⟩
    simpa [given] using hbefore _ ho'
  · simp [given, hn] at ho

/-- a tag is the element's own, or is first given by an element before it in its level, or by one in a level above -/
theorem tagBehind_cases {before : List (Option String × Occurrence)} {above : List Reading} {name : Option String}
    {e : Element} {tag : String} (h : tagBehind before above name e = some tag) :
    e.tagName = some tag ∨ (∃ o, FirstGives before o tag) ∨ ∃ r ∈ above, ∃ o, FirstGives r.parts.occurrences o tag := by
  rcases Option.or_eq_some_iff.1 h with h | ⟨-, h⟩
  · exact .inl h
  · obtain ⟨name, -, h⟩ := Option.bind_eq_some_iff.1 h
    rcases Option.or_eq_some_iff.1 h with h | ⟨-, h⟩
    · exact .inr (.inl (exists_firstGives h))
    · obtain ⟨r, hr, h⟩ := List.exists_of_findSome?_eq_some h
      exact .inr (.inr ⟨r, hr, exists_firstGives h⟩)

section

variable {ds : List Document} {rs above : List Reading} {r : Reading} (h : ReadsAll ds rs)
include h

theorem ReadsAll.lookup_tags (hr : r ∈ rs) (name : String) :
    r.tags.lookup name = firstTag name r.parts.occurrences := by
  obtain ⟨below, rs', rfl⟩ := List.append_of_mem hr
  obtain ⟨helpers, nodes, hreads⟩ := reads_of_suffix h (List.suffix_append below (r :: rs'))
  rw [hreads.lookup_tags, List.lookup_nil, Option.none_or]
  rfl

/-- where the tag of an element is from -/
theorem ReadsAll.tag_at (hs : r :: above <:+ rs) {before after : List (Option String × Occurrence)}
    {name : Option String} {o : Occurrence} (hsplit : r.parts.occurrences = before ++ (name, o) :: after) :
    o.tag = tagBehind before above name o.element := by
  obtain ⟨helpers, nodes, hreads⟩ := reads_of_suffix h hs
  have habove (name : String) :
      (contextOver helpers above).tag? name = above.findSome? fun r => firstTag name r.parts.occurrences := by
    refine findSome?_congr fun r' hr' => h.lookup_tags (hs.subset ?_) name
    exact List.mem_cons_of_mem r hr'
  rw [hreads.tag_at hsplit]
  simp only [List.lookup_nil, Option.none_or, habove]
  rfl

end

/-! ## Where attributes are from -/

/-- the name is that of an attribute of an element -/
def IsAttributeIn (rs : List Reading) (name : String) : Prop :=
  ∃ r ∈ rs, ∃ p ∈ r.parts.occurrences, ∃ attributes, p.2.element.attributes = some attributes ∧
    ∃ a ∈ attributes.list, a.name = name

theorem IsAttributeIn.mono {rs rs' : List Reading} {name : String} (h : IsAttributeIn rs name)
    (hsub : ∀ r ∈ rs, r ∈ rs') : IsAttributeIn rs' name := by
  obtain ⟨r, hr, hname⟩ := h
  exact ⟨r, hsub r hr, hname⟩

theorem mem_names_setAll {s : AttributeSlots} {list : List Attribute} {name : String}
    (h : name ∈ (s.setAll list).names) : name ∈ s.names ∨ ∃ a ∈ list, a.name = name := by
  rw [AttributeSlots.names_setAll, mergedNames, List.mem_append, List.mem_filter, List.mem_eraseDups,
    List.mem_map] at h
  exact h.imp_right And.left

/-- an attribute of an element is given with it, or inherited -/
theorem Context.mem_names_slotsOf {ctx : Context} {e : Element} {slots : AttributeSlots} {name : String}
    (h : ctx.slotsOf e = some slots) (hname : name ∈ slots.names) :
    (∃ attributes, e.attributes = some attributes ∧ ∃ a ∈ attributes.list, a.name = name) ∨
      ∃ target inherited, ctx.slots? target = some inherited ∧ name ∈ inherited.names := by
  unfold Context.slotsOf at h
  split at h
  · contradiction
  · contradiction
  · rename_i list hattributes
    cases h
    rcases mem_names_setAll hname with hname | hname
    · simp [AttributeSlots.names] at hname
    · exact .inl ⟨_, hattributes, hname⟩
  · rename_i call list hattributes
    cases h
    rcases mem_names_setAll hname with hname | hname
    · cases hslots : (call.elementName <|> e.name).bind ctx.slots? with
      | none =>
        rw [hslots] at hname
        simp [AttributeSlots.names] at hname
      | some inherited =>
        obtain ⟨target, -, htarget⟩ := Option.bind_eq_some_iff.1 hslots
        rw [hslots, Option.getD_some] at hname
        exact .inr ⟨target, inherited, htarget, hname⟩
    · exact .inl ⟨_, hattributes, hname⟩

/-- so in the end it is given with some element -/
theorem ReadsAll.isAttributeIn {ds : List Document} {rs : List Reading} (h : ReadsAll ds rs) :
    ∀ r ∈ rs, ∀ p ∈ r.parts.occurrences, ∀ slots, p.2.slots = some slots →
      ∀ name ∈ slots.names, IsAttributeIn rs name := by
  induction h with
  | none => simp
  | @document ds rs tags ps d _ hreads ih =>
    have habove (r : Reading) (hr : r ∈ rs) (p : Option String × Occurrence) (hp : p ∈ r.parts.occurrences)
        (slots : AttributeSlots) (hslots : p.2.slots = some slots) (name : String) (hname : name ∈ slots.names) :
        IsAttributeIn (⟨prefixesOver d.blockNames rs, ps, tags⟩ :: rs) name :=
      (ih r hr p hp slots hslots name hname).mono fun r hr => List.mem_cons_of_mem _ hr
    refine List.forall_mem_cons.2 ⟨fun p hp slots hslots name hname => ?_, habove⟩
    rw [(hreads.readFrom p hp).slots] at hslots
    rcases Context.mem_names_slotsOf hslots hname with hgiven | ⟨target, inherited, htarget, hname⟩
    · exact ⟨_, List.mem_cons_self, p, hp, hgiven⟩
    · -- what is inherited are the attributes of an element in a level above
      obtain ⟨r, hr, hlookup⟩ := List.exists_of_findSome?_eq_some htarget
      rw [r.lookup_slotLists, Reading.slots?] at hlookup
      obtain ⟨p', hp', hslots'⟩ := List.exists_of_findSome?_eq_some hlookup
      split at hslots'
      · exact habove r hr p' (List.mem_reverse.1 hp') inherited hslots' name hname
      · contradiction

/-! ## What markup is made of -/

inductive Piece where
  | text (value : String)
  | opening (tag : String) (attributes : List (String × String))
  | closing (tag : String)

namespace Piece

def markup : Piece → String
  | .text value => value
  | .opening tag attributes => openingText tag attributes
  | .closing tag => "</" ++ tag ++ ">"

/-- tags are of the kind `P` and attributes of the kind `Q`; texts and values are escaped, so that there are no other
tags in them -/
def IsOf (P Q : String → Prop) : Piece → Prop
  | .text value => Escaped .text value.toList
  | .opening tag attributes => P tag ∧ ∀ a ∈ attributes, Q a.1 ∧ Escaped .value a.2.toList
  | .closing tag => P tag

end Piece

/-- the text is made of pieces with tags of the kind `P` and attributes of the kind `Q` -/
def MadeOf (P Q : String → Prop) (text : String) : Prop :=
  ∃ pieces : List Piece, text = String.join (pieces.map Piece.markup) ∧ ∀ piece ∈ pieces, piece.IsOf P Q

namespace MadeOf

variable {P Q : String → Prop}

theorem empty : MadeOf P Q "" := ⟨[], rfl, by simp⟩

theorem append {s t : String} (hs : MadeOf P Q s) (ht : MadeOf P Q t) : MadeOf P Q (s ++ t) := by
  obtain ⟨pieces, rfl, hpieces⟩ := hs
  obtain ⟨pieces', rfl, hpieces'⟩ := ht
  refine ⟨pieces ++ pieces', by simp, ?_⟩
  exact List.forall_mem_append.2 ⟨hpieces, hpieces'⟩

theorem piece {piece : Piece} (h : piece.IsOf P Q) : MadeOf P Q piece.markup := ⟨[piece], by simp, by simpa using h⟩

theorem mono {P' Q' : String → Prop} {text : String} (h : MadeOf P Q text) (hP : ∀ tag, P tag → P' tag)
    (hQ : ∀ name, Q name → Q' name) : MadeOf P' Q' text := by
  obtain ⟨pieces, rfl, hpieces⟩ := h
  refine ⟨pieces, rfl, fun piece hpiece => ?_⟩
  have hkind := hpieces piece hpiece
  cases piece with
  | text value => exact hkind
  | opening tag attributes => exact ⟨hP tag hkind.1, fun a ha => ⟨hQ a.1 (hkind.2 a ha).1, (hkind.2 a ha).2⟩⟩
  | closing tag => exact hP tag hkind

/-- where tags and attributes have names that can be parsed, no other tags and attributes are seen -/
theorem shows {text : String} (h : MadeOf P Q text) (hP : ∀ tag, P tag → IsName .tag tag)
    (hQ : ∀ name, Q name → IsName .attr name) :
    ∃ tags, Shows text tags ∧ ∀ tag ∈ tags, P tag.name ∧ ∀ name ∈ tag.attributes, Q name := by
  obtain ⟨pieces, rfl, hpieces⟩ := h
  induction pieces with
  | nil => exact ⟨[], shows_empty, by simp⟩
  | cons piece pieces ih =>
    rw [List.forall_mem_cons] at hpieces
    obtain ⟨hkind, hrest⟩ := hpieces
    obtain ⟨tags, htags, hall⟩ := ih hrest
    rw [List.map_cons, String.join_cons]
    cases piece with
    | text value => exact ⟨tags, (shows_text hkind).append htags, hall⟩
    | opening tag attributes =>
      have hnames : ∀ name ∈ attributes.map Prod.fst, Q name := by
        simpa using fun name value ha => (hkind.2 (name, value) ha).1
      have hshows := shows_opening (hP tag hkind.1) (fun name hname => hQ name (hnames name hname))
        fun a ha => (hkind.2 a ha).2
      exact ⟨_, hshows.append htags, List.forall_mem_cons.2 ⟨⟨hkind.1, hnames⟩, hall⟩⟩
    | closing tag =>
      exact ⟨_, (shows_closing (hP tag hkind)).append htags, List.forall_mem_cons.2 ⟨⟨hkind, by simp [Tag.attributes]⟩,
        hall⟩⟩

end MadeOf

/-- what is written of an element is of the kinds `P` and `Q` -/
structure Occurrence.IsOf (P Q : String → Prop) (o : Occurrence) : Prop where
  tag : P o.tagName
  attributes : ∀ name ∈ (o.slots.getD {}).names, Q name
  classes : Q "class"

theorem Occurrence.fst_of_mem_attributes {prefixes classNames : List String} {slots : AttributeSlots}
    {a : String × String} (ha : a ∈ Occurrence.attributes prefixes classNames slots) :
    a.1 = "class" ∨ a.1 ∈ slots.names := by
  unfold Occurrence.attributes at ha
  rcases List.mem_append.1 ha with ha | ha
  · split at ha
    · exact .inl (List.mem_singleton.1 ha ▸ rfl)
    · simp at ha
  · obtain ⟨slot, hslot, rfl⟩ := List.mem_map.1 ha
    exact .inr (List.mem_map_of_mem hslot)

/-- an element around pieces, with its own tags -/
theorem MadeOf.around {P Q : String → Prop} {o : Occurrence} {prefixes : List String} {content : String}
    (ho : o.IsOf P Q) (hcontent : MadeOf P Q content) : MadeOf P Q (o.opening prefixes ++ content ++ o.closing) := by
  have hopening : MadeOf P Q (o.opening prefixes) := by
    rw [o.opening_eq]
    refine @MadeOf.piece P Q (.opening o.tagName _) ⟨ho.tag, fun a ha => ⟨?_, ?_⟩⟩
    · rcases Occurrence.fst_of_mem_attributes ha with hclass | hname
      · exact hclass ▸ ho.classes
      · exact ho.attributes _ hname
    · exact Occurrence.escaped_attributes prefixes o.element.classNames (o.slots.getD {}) a ha
  have hclosing : MadeOf P Q o.closing := by
    unfold Occurrence.closing
    split
    · exact @MadeOf.piece P Q (.closing o.tagName) ho.tag
    · exact .empty
  exact (hopening.append hcontent).append hclosing

/-- all elements that have tags of their own are written with tags and attributes of the kinds `P` and `Q` -/
def Parts.IsOf (P Q : String → Prop) (ps : Parts) : Prop := ∀ p ∈ ps.occurrences, HasTags p → p.2.IsOf P Q

/-- markup is made of texts and the tags of elements -/
theorem Expands.madeOf {P Q : String → Prop} {chain owner : List Reading} {prefixes : List String} {ps : Parts}
    {text : String} (h : Expands chain prefixes owner ps text) (hchain : ∀ r ∈ chain, r.parts.IsOf P Q)
    (howner : ∀ r ∈ owner, r.parts.IsOf P Q) (hps : ps.IsOf P Q) : MadeOf P Q text := by
  induction h with
  | done => exact .empty
  | @text owner ps s value _ ih =>
    have hvalue : MadeOf P Q (escapeText value) := @MadeOf.piece P Q (.text _) (escaped_escape .text value)
    exact hvalue.append (ih howner hps)
  | anonymous _ _ ihc ih =>
    unfold Parts.IsOf at hps
    simp only [Parts.occurrences, List.forall_mem_cons, List.forall_mem_append] at hps
    obtain ⟨ho, hchildren, hrest⟩ := hps
    exact (MadeOf.around (ho (.inl rfl)) (ihc howner hchildren)).append (ih howner hrest)
  | @named owner level name o children ps content s d hd _ _ ihc ih =>
    unfold Parts.IsOf at hps
    simp only [Parts.occurrences, List.forall_mem_cons, List.forall_mem_append] at hps
    obtain ⟨r, hr, hmem, hchildren⟩ := mem_occurrences_of_findDefinition hd
    obtain ⟨r', rs', hlevel, hsuffix, -⟩ := findDefinition_eq_some hd
    have hcontent := ihc (fun r hr => hchain r (hsuffix.subset hr)) fun p hp => hchain r hr p (hchildren p hp)
    refine MadeOf.append ?_ (ih howner hps.2.2)
    unfold Occurrence.around
    cases hh : d.occurrence.element.isHelper with
    | true => exact hcontent
    | false => exact MadeOf.around (hchain r hr _ hmem (.inr hh)) hcontent
  | @superCall owner level target ps content s d hd _ _ ihc ih =>
    have htail : ∀ r ∈ owner.tail, r.parts.IsOf P Q := fun r hr => howner r (List.mem_of_mem_tail hr)
    obtain ⟨r, hr, -, hchildren⟩ := mem_occurrences_of_findDefinition hd
    obtain ⟨r', rs', hlevel, hsuffix, -⟩ := findDefinition_eq_some hd
    have hcontent := ihc (fun r hr => htail r (hsuffix.subset hr)) fun p hp => htail r hr p (hchildren p hp)
    exact hcontent.append (ih howner hps)

/-! ## Written tags -/

/-- an element that is markup has the tag written with it -/
def GivenByMarkup (rs : List Reading) (tag : String) : Prop :=
  ∃ r ∈ rs, ∃ p ∈ r.parts.occurrences, p.2.element.isHelper = false ∧ p.2.element.tagName = some tag

/-- a helper of that name is the first in its level to give its element's name something where a tag stands -/
def GivenByHelper (rs : List Reading) (tag : String) : Prop :=
  ∃ r ∈ rs, ∃ o, FirstGives r.parts.occurrences o tag ∧ o.element.isHelper = true

theorem FirstGives.given {rs : List Reading} {r : Reading} {o : Occurrence} {tag : String}
    (h : FirstGives r.parts.occurrences o tag) (hr : r ∈ rs) : GivenByMarkup rs tag ∨ GivenByHelper rs tag := by
  cases hh : o.element.isHelper with
  | true => exact .inr ⟨r, hr, o, h, hh⟩
  | false =>
    obtain ⟨before, name, after, hos, -⟩ := h.first
    exact .inl ⟨r, hr, (some name, o), by simp [hos], hh, h.tag⟩

/-- where the tag of an element that is markup is from, in a chain of readings -/
structure IsTagIn (rs : List Reading) (tag : String) : Prop where
  /-- from the element, or else from its name -/
  resolved : ∃ r above before name o after, r :: above <:+ rs ∧ r.parts.occurrences = before ++ (name, o) :: after ∧
    o.element.isHelper = false ∧ tag = (tagBehind before above name o.element).getD defaultTag
  /-- in the end, from some element -/
  source : tag = defaultTag ∨ GivenByMarkup rs tag ∨ GivenByHelper rs tag

theorem ReadsAll.isTagIn {ds : List Document} {rs : List Reading} (h : ReadsAll ds rs) {r : Reading} (hr : r ∈ rs)
    {p : Option String × Occurrence} (hp : p ∈ r.parts.occurrences) (hmarkup : p.2.element.isHelper = false) :
    IsTagIn rs p.2.tagName := by
  obtain ⟨name, o⟩ := p
  obtain ⟨below, above, rfl⟩ := List.append_of_mem hr
  obtain ⟨before, after, hsplit⟩ := List.append_of_mem hp
  have hsuffix := List.suffix_append below (r :: above)
  have htag : o.tag = tagBehind before above name o.element := h.tag_at hsuffix hsplit
  have hname : o.tagName = (tagBehind before above name o.element).getD defaultTag := congrArg (·.getD defaultTag) htag
  refine ⟨⟨r, above, before, name, o, after, hsuffix, hsplit, hmarkup, hname⟩, ?_⟩
  change o.tagName = defaultTag ∨ _
  rw [hname]
  cases hfrom : tagBehind before above name o.element with
  | none => exact .inl rfl
  | some tag =>
    rw [Option.getD_some]
    right
    rcases tagBehind_cases hfrom with hown | ⟨o', ho'⟩ | ⟨r', hr', o', ho'⟩
    · exact .inl ⟨r, hr, (name, o), hp, hmarkup, hown⟩
    · have hlevel := ho'.append ((name, o) :: after)
      rw [← hsplit] at hlevel
      exact hlevel.given hr
    · exact ho'.given (hsuffix.subset (List.mem_cons_of_mem r hr'))

/-- the elements of a sound reading can be written -/
theorem Parts.Sound.occurrence {ps : Parts} (h : ps.Sound) {p : Option String × Occurrence} (hp : p ∈ ps.occurrences) :
    p.2.Sound := by
  induction ps with
  | done => simp [occurrences] at hp
  | text value rest ih => exact ih h hp
  | anonymous o children rest ihc ih =>
    simp only [occurrences, List.mem_cons, List.mem_append] at hp
    rcases hp with rfl | hp | hp
    · exact h.1.1
    · exact ihc h.2.1 hp
    · exact ih h.2.2 hp
  | named name o children rest ihc ih =>
    simp only [occurrences, List.mem_cons, List.mem_append] at hp
    rcases hp with rfl | hp | hp
    · exact h.1
    · exact ihc h.2.1 hp
    · exact ih h.2.2 hp
  | superCall target rest ih => exact ih h hp

/-- **Written tags.** What a template is rendered to is made of escaped texts and of tags. Each tag is that of an element
that is markup: its own, the one that its name has, or the default. So it is the default or is given by an element that
is markup, unless a helper was the first in its level to give something to a name: then its own name can be written as a
tag. The names of attributes are those that elements have, and that of the class attribute. Where all these names can be
parsed, markup that is read has no other tags and attributes. -/
theorem written_tags {ds : List Document} {t : Template} (h : Compiled ds (some t)) :
    ∃ rs text, ReadsAll ds rs ∧ t.render = .ok text ∧
      MadeOf (IsTagIn rs) (fun name => name = "class" ∨ IsAttributeIn rs name) text ∧
      ((∀ d ∈ ds, d.Named) → ∀ tag ∈ tagSequence text, IsTagIn rs tag.name ∧
        ∀ name ∈ tag.attributes, name = "class" ∨ IsAttributeIn rs name) := by
  obtain ⟨rs, hreads, hleaf⟩ := compiled_reads h
  obtain ⟨text, htext⟩ :=
    Template.render_of_check hleaf.wellBound (Realised.fits_start hleaf) (recursiveElement?_of_compiled h)
  obtain ⟨leaf, above, root, hreads', hroot, hexpands⟩ := expansion_of_render h htext
  cases hreads.unique hreads'
  let P (tag : String) : Prop := IsTagIn (leaf :: above) tag ∧ ((∀ d ∈ ds, d.Named) → IsName .tag tag)
  let Q (name : String) : Prop :=
    (name = "class" ∨ IsAttributeIn (leaf :: above) name) ∧ ((∀ d ∈ ds, d.Named) → IsName .attr name)
  have hkinds : ∀ r ∈ leaf :: above, r.parts.IsOf P Q := by
    intro r hr p hp hhas
    obtain ⟨below, rs', heq⟩ := List.append_of_mem hr
    obtain ⟨helpers, nodes, hnodes⟩ := reads_of_suffix hreads (heq ▸ List.suffix_append below (r :: rs'))
    have hsound (hnamed : ∀ d ∈ ds, d.Named) : p.2.Sound := (hreads.sound hnamed r hr).parts.occurrence hp
    refine ⟨⟨hreads.isTagIn hr hp (hnodes.isHelper_of_hasTags p hp hhas), fun hnamed => (hsound hnamed).tag⟩,
      fun name hname => ⟨.inr ?_, fun hnamed => (hsound hnamed).slots.names name hname⟩,
      ⟨.inl rfl, fun _ => isName_class⟩⟩
    cases hslots : p.2.slots with
    | none => simp [hslots, AttributeSlots.names] at hname
    | some slots =>
      rw [hslots, Option.getD_some] at hname
      exact hreads.isAttributeIn r hr p hp slots hslots name hname
  have hlast := hkinds root (List.mem_of_getLast? hroot)
  have hmade : MadeOf P Q text := hexpands.madeOf hkinds (by simpa using hlast) hlast
  refine ⟨_, text, hreads, htext, hmade.mono (fun _ => And.left) fun _ => And.left, fun hnamed => ?_⟩
  obtain ⟨tags, hshows, htags⟩ := hmade.shows (fun _ hP => hP.2 hnamed) fun _ hQ => hQ.2 hnamed
  rw [hshows.tagSequence]
  exact fun tag htag => ⟨(htags tag htag).1.1, fun name hname => ((htags tag htag).2 name hname).1⟩

theorem titles_named : ∀ d ∈ [titledAgain, untitled, titled], d.Named := by
  have hspan : IsName .tag "span" := .inl ⟨'s', "pan".toList, rfl, by decide, List.all_eq_true.1 (by decide)⟩
  have hx : IsName .attr "x" := .inl ⟨'x', [], rfl, by decide, by simp⟩
  simp only [List.forall_mem_cons, List.not_mem_nil, IsEmpty.forall_iff, implies_true, and_true]
  refine ⟨⟨?_, keepsNames_builtins⟩, ⟨?_, keepsNames_builtins⟩, ?_, keepsNames_builtins⟩
  · exact .element (by simp) (by simp) .nil .nil
  · exact .element (by simp) (by simp) (.text .nil) .nil
  · exact .element (by simpa using hspan) (by simpa using hx) .nil .nil

/-- the tag is that of the root, and the attribute that of the root, too -/
theorem titledAgain_tags :
    ∃ t rs, Compiled [titledAgain, untitled, titled] (some t) ∧ ReadsAll [titledAgain, untitled, titled] rs ∧
      t.render = .ok "<span class=\"c__m b__m a__m\" x=\"1\"></span>" ∧
      tagSequence "<span class=\"c__m b__m a__m\" x=\"1\"></span>" =
        [.opening "span" ["class", "x"], .closing "span"] ∧
      IsTagIn rs "span" ∧ IsAttributeIn rs "x" ∧
      GivenByMarkup rs "span" ∧ ∀ tag, ¬ GivenByHelper rs tag := by
  obtain ⟨root, hroot⟩ : ∃ root, (compile titled.block none titled.options).result = .ok root := ⟨_, rfl⟩
  obtain ⟨base, hbase⟩ : ∃ base, (compile untitled.block (some root) untitled.options).result = .ok base := by
    cases hroot
    exact ⟨_, rfl⟩
  obtain ⟨t, ht, hrender⟩ : ∃ t, (compile titledAgain.block (some base) titledAgain.options).result = .ok t ∧
      t.render = .ok "<span class=\"c__m b__m a__m\" x=\"1\"></span>" := by
    cases hroot
    cases hbase
    exact ⟨_, rfl, rfl⟩
  have hcompiled : Compiled [titledAgain, untitled, titled] (some t) :=
    .document _ (.document _ (.document _ .none hroot) hbase) ht
  have htags : tagSequence "<span class=\"c__m b__m a__m\" x=\"1\"></span>" =
      [.opening "span" ["class", "x"], .closing "span"] := by decide +kernel
  obtain ⟨rs, text, hreads, htext, -, hnames⟩ := written_tags hcompiled
  cases hrender.symm.trans htext
  obtain ⟨htag, hattributes⟩ := hnames titles_named (.opening "span" ["class", "x"]) (by simp [htags])
  have hreads' : ReadsAll [titledAgain, untitled, titled] _ := .document (.document (.document .none
    (.named rfl rfl .done .done)) (.named rfl rfl (.text "t" .done) .done)) (.named rfl rfl .done .done)
  obtain rfl := hreads.unique hreads'
  have hx : IsAttributeIn _ "x" := (hattributes "x" (by simp [Tag.attributes])).resolve_left (by simp)
  refine ⟨t, _, hcompiled, hreads, hrender, htags, htag, hx, ?_, ?_⟩
  · simp [GivenByMarkup, Parts.occurrences]
  · -- no element of the three documents is a helper
    rintro tag ⟨r, hr, o, ⟨-, before, name, after, hos, -⟩, hhelper⟩
    have hmem : (some name, o) ∈ r.parts.occurrences := by simp [hos]
    simp only [List.mem_cons, List.not_mem_nil, or_false] at hr
    rcases hr with rfl | rfl | rfl
    all_goals
      simp only [Parts.occurrences, List.append_nil, List.mem_singleton, Prod.mk.injEq] at hmem
      rw [hmem.2] at hhelper
      contradiction

/-- an element whose content a helper returns -/
def helped : Document where
  block := ⟨some "a", [.element ⟨true, some "section", some [some "x"], none, some [.text "t"]⟩]⟩

/-- the same element as markup, without a tag -/
def unhelped : Document where
  block := ⟨some "b", [.element ⟨false, none, some [some "x"], none, some [.text "u"]⟩]⟩

/-- the name of the helper is written as a tag, though no element that is markup gives that tag -/
theorem helper_is_written :
    ∃ t rs, Compiled [unhelped, helped] (some t) ∧ ReadsAll [unhelped, helped] rs ∧
      t.render = .ok "<section class=\"b__x a__x\">u</section>" ∧
      tagSequence "<section class=\"b__x a__x\">u</section>" =
        [.opening "section" ["class"], .closing "section"] ∧
      ¬ ("section" = defaultTag ∨ GivenByMarkup rs "section") := by
  obtain ⟨base, hbase⟩ : ∃ base, (compile helped.block none helped.options).result = .ok base := ⟨_, rfl⟩
  obtain ⟨t, ht, hrender⟩ : ∃ t, (compile unhelped.block (some base) unhelped.options).result = .ok t ∧
      t.render = .ok "<section class=\"b__x a__x\">u</section>" := by
    cases hbase
    exact ⟨_, rfl, rfl⟩
  refine ⟨t, _, .document _ (.document _ .none hbase) ht, .document (.document .none (.named rfl rfl
    (.text "t" .done) .done)) (.named rfl rfl (.text "u" .done) .done), hrender, by decide +kernel, ?_⟩
  simp [GivenByMarkup, Parts.occurrences, defaultTag]

end BlockTemplates
