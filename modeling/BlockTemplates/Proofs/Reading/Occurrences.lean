/-
The elements of a document, in the order in which they begin. Definitions are listed where they are complete, attributes
where they begin, tags where they are first given: all three are read off the same elements. The last definition of a
name is followed by no element of that name but those inside it.

Main statements: `Parts.occurrences_perm` (what begins is what is defined), `Parts.occurrences_of_definition` and
`Parts.occurrences_of_once` (where the last definition of a name stands, and the only one), `Reads.readFrom` and
`Reads.tag_at` (what is known about each element), `Reads.lookup_tags` (the tags that names have in the end).
-/
import BlockTemplates.Proofs.Reading.Chain

namespace BlockTemplates

open Html Markup

/-! ## Elements in their order -/

/-- the elements with the names that they define, in the order in which they begin -/
def Parts.occurrences : Parts → List (Option String × Occurrence)
  | .done => []
  | .text _ rest | .superCall _ rest => rest.occurrences
  | .anonymous o children rest => (none, o) :: (children.occurrences ++ rest.occurrences)
  | .named name o children rest => (some name, o) :: (children.occurrences ++ rest.occurrences)

/-- what an element says about a name, if the name is its own -/
def given {α : Type} (f : Occurrence → Option α) (name : String) (p : Option String × Occurrence) : Option α :=
  if p.1 = some name then f p.2 else none

theorem findSome?_given_eq_none {α : Type} {f : Occurrence → Option α} {name : String}
    {os : List (Option String × Occurrence)} (h : ∀ o, (some name, o) ∈ os → f o = none) :
    os.findSome? (given f name) = none := by
  refine List.findSome?_eq_none_iff.2 ?_
  rintro ⟨n, o⟩ hp
  by_cases hn : n = some name
  · subst hn
    simpa [given] using h o hp
  · exact if_neg hn

theorem findSome?_given_of_ne {α : Type} (f : Occurrence → Option α) {name : String}
    {os : List (Option String × Occurrence)} (h : ∀ p ∈ os, p.1 ≠ some name) : os.findSome? (given f name) = none :=
  findSome?_given_eq_none fun _ ho => absurd rfl (h _ ho)

theorem findSome?_cons_or {α β : Type} (f : α → Option β) (a : α) (as : List α) :
    (a :: as).findSome? f = (f a).or (as.findSome? f) := by
  rw [List.findSome?_cons]
  cases f a with
  | none => rfl
  | some b => rfl

theorem findSome?_congr {α β : Type} {f g : α → Option β} {as : List α} (h : ∀ a ∈ as, f a = g a) :
    as.findSome? f = as.findSome? g := by
  induction as with
  | nil => rfl
  | cons a as ih =>
    rw [List.forall_mem_cons] at h
    rw [findSome?_cons_or, findSome?_cons_or, h.1, ih h.2]

/-- an element with tags of its own; without a name, elements are read only if they have them -/
def HasTags (p : Option String × Occurrence) : Prop := p.1 = none ∨ p.2.element.isHelper = false

/-- whether attributes are written, be it only a super call -/
def Markup.Element.HasAttributes (e : Element) : Prop :=
  ∃ attributes, e.attributes = some attributes ∧ (attributes.list ≠ [] ∨ attributes.superCall ≠ none)

theorem Context.slotsOf_isSome_iff (ctx : Context) (e : Element) : (ctx.slotsOf e).isSome ↔ e.HasAttributes := by
  unfold Context.slotsOf Element.HasAttributes
  split <;> simp_all

namespace Parts

theorem occurrences_append (ps qs : Parts) : (ps.append qs).occurrences = ps.occurrences ++ qs.occurrences := by
  induction ps with
  | done => rfl
  | text value rest ih => exact ih
  | anonymous o children rest _ ih => simp [append, occurrences, ih]
  | named name o children rest _ ih => simp [append, occurrences, ih]
  | superCall target rest ih => exact ih

/-- attributes are listed in the order of the elements that have any -/
theorem slotLists_eq (ps : Parts) :
    ps.slotLists = ps.occurrences.filterMap fun p => p.1.bind fun name => p.2.slots.map (name, ·) := by
  induction ps with
  | done => rfl
  | text value rest ih => exact ih
  | anonymous o children rest ihc ih => simp [slotLists, occurrences, ihc, ih]
  | named name o children rest ihc ih =>
    cases hs : o.slots with
    | none => simp [slotLists, occurrences, ihc, ih, hs]
    | some slots => simp [slotLists, occurrences, ihc, ih, hs]
  | superCall target rest ih => exact ih

/-- the named elements that begin are those that are defined -/
theorem occurrences_perm (ps : Parts) :
    (ps.occurrences.filter (·.1.isSome)).Perm (ps.definitions.map fun p => (some p.1, p.2.occurrence)) := by
  induction ps with
  | done => exact .refl _
  | text value rest ih => exact ih
  | anonymous o children rest ihc ih =>
    simpa [occurrences, definitions] using ihc.append ih
  | named name o children rest ihc ih =>
    have hrest := (ihc.append ih).cons (some name, o)
    simpa [occurrences, definitions] using hrest.trans List.perm_middle.symm
  | superCall target rest ih => exact ih

theorem exists_definition_of_mem_occurrences {ps : Parts} {name : String} {o : Occurrence}
    (h : (some name, o) ∈ ps.occurrences) : ∃ d, (name, d) ∈ ps.definitions ∧ d.occurrence = o := by
  have hmem : (some name, o) ∈ ps.definitions.map fun p => (some p.1, p.2.occurrence) :=
    ps.occurrences_perm.mem_iff.1 (List.mem_filter.2 ⟨h, rfl⟩)
  obtain ⟨⟨name', d⟩, hd, heq⟩ := List.mem_map.1 hmem
  cases heq
  exact ⟨d, hd, rfl⟩

/-- the elements of a definition, itself included, are among those of the parts that it is in -/
theorem mem_occurrences_of_definition {ps : Parts} {p : String × Definition} (h : p ∈ ps.definitions) :
    (some p.1, p.2.occurrence) ∈ ps.occurrences ∧ ∀ q ∈ p.2.children.occurrences, q ∈ ps.occurrences := by
  induction ps with
  | done => simp [definitions] at h
  | text value rest ih => exact ih h
  | superCall target rest ih => exact ih h
  | anonymous o children rest ihc ih =>
    simp only [occurrences, List.mem_cons, List.mem_append]
    rcases List.mem_append.1 h with h | h
    · exact ⟨.inr (.inl (ihc h).1), fun q hq => .inr (.inl ((ihc h).2 q hq))⟩
    · exact ⟨.inr (.inr (ih h).1), fun q hq => .inr (.inr ((ih h).2 q hq))⟩
  | named name o children rest ihc ih =>
    simp only [definitions, List.mem_append, List.mem_cons] at h
    simp only [occurrences, List.mem_cons, List.mem_append]
    rcases h with h | rfl | h
    · exact ⟨.inr (.inl (ihc h).1), fun q hq => .inr (.inl ((ihc h).2 q hq))⟩
    · exact ⟨.inl rfl, fun q hq => .inr (.inl hq)⟩
    · exact ⟨.inr (.inr (ih h).1), fun q hq => .inr (.inr ((ih h).2 q hq))⟩

theorem fst_ne_of_lookup {ps : Parts} {name : String} (h : ps.definitions.reverse.lookup name = none) :
    ∀ p ∈ ps.occurrences, p.1 ≠ some name := by
  rintro ⟨_, o⟩ hp rfl
  obtain ⟨d, hd, -⟩ := exists_definition_of_mem_occurrences hp
  rw [List.lookup_eq_none_iff] at h
  simpa using h (name, d) (List.mem_reverse.2 hd)

/-- behind the last definition of a name, elements of that name begin only inside it -/
theorem occurrences_of_definition {ps : Parts} {name : String} {d : Definition}
    (h : ps.definitions.reverse.lookup name = some d) :
    ∃ before after, ps.occurrences = before ++ (some name, d.occurrence) :: (d.children.occurrences ++ after) ∧
      ∀ p ∈ after, p.1 ≠ some name := by
  induction ps with
  | done => contradiction
  | text value rest ih => exact ih h
  | superCall target rest ih => exact ih h
  | anonymous o children rest ihc ih =>
    rw [definitions, List.reverse_append, List.lookup_append] at h
    cases hrest : rest.definitions.reverse.lookup name with
    | some d' =>
      rw [hrest, Option.some_or, Option.some.injEq] at h
      obtain ⟨before, after, heq, hafter⟩ := ih (h ▸ hrest)
      exact ⟨(none, o) :: (children.occurrences ++ before), after, by simp [occurrences, heq], hafter⟩
    | none =>
      rw [hrest, Option.none_or] at h
      obtain ⟨before, after, heq, hafter⟩ := ihc h
      refine ⟨(none, o) :: before, after ++ rest.occurrences, by simp [occurrences, heq], ?_⟩
      exact List.forall_mem_append.2 ⟨hafter, fst_ne_of_lookup hrest⟩
  | named name' o children rest ihc ih =>
    rw [definitions, List.reverse_append, List.reverse_cons, List.append_assoc, List.lookup_append] at h
    cases hrest : rest.definitions.reverse.lookup name with
    | some d' =>
      rw [hrest, Option.some_or, Option.some.injEq] at h
      obtain ⟨before, after, heq, hafter⟩ := ih (h ▸ hrest)
      exact ⟨(some name', o) :: (children.occurrences ++ before), after, by simp [occurrences, heq], hafter⟩
    | none =>
      rw [hrest, Option.none_or, List.singleton_append, List.lookup_cons] at h
      split at h
      · rename_i hname
        obtain rfl := eq_of_beq hname
        cases h
        exact ⟨[], rest.occurrences, rfl, fst_ne_of_lookup hrest⟩
      · obtain ⟨before, after, heq, hafter⟩ := ihc h
        refine ⟨(some name', o) :: before, after ++ rest.occurrences, by simp [occurrences, heq], ?_⟩
        exact List.forall_mem_append.2 ⟨hafter, fst_ne_of_lookup hrest⟩

theorem countP_occurrences (ps : Parts) (name : String) :
    ps.occurrences.countP (·.1 = some name) = ps.definitions.countP (·.1 = name) := by
  have hcount := ps.occurrences_perm.countP_eq (fun p => decide (p.1 = some name))
  rw [List.countP_filter, List.countP_map] at hcount
  calc ps.occurrences.countP (·.1 = some name)
      = ps.occurrences.countP fun p => decide (p.1 = some name) && p.1.isSome := by
        refine List.countP_congr fun p _ => ?_
        cases hp : p.1 <;> simp
    _ = ps.definitions.countP (·.1 = name) := by simpa [Function.comp_def] using hcount

/-- where a name is defined only once, no other element has that name -/
theorem occurrences_of_once {ps : Parts} {name : String} {d : Definition}
    (h : ps.definitions.reverse.lookup name = some d) (honce : ps.definitions.countP (·.1 = name) = 1) :
    ∃ before after, ps.occurrences = before ++ (some name, d.occurrence) :: after ∧ (∀ p ∈ before, p.1 ≠ some name) ∧
      (∀ p ∈ after, p.1 ≠ some name) ∧ ∀ p ∈ d.children.occurrences, p ∈ after := by
  obtain ⟨before, after, heq, hafter⟩ := occurrences_of_definition h
  rw [← countP_occurrences, heq, List.countP_append, List.countP_cons_of_pos (by simp), List.countP_append] at honce
  have hbefore : before.countP (·.1 = some name) = 0 := by omega
  have hchildren : d.children.occurrences.countP (·.1 = some name) = 0 := by omega
  rw [List.countP_eq_zero] at hbefore hchildren
  refine ⟨before, d.children.occurrences ++ after, heq, by simpa using hbefore, ?_, ?_⟩
  · exact List.forall_mem_append.2 ⟨by simpa using hchildren, hafter⟩
  · exact fun p hp => List.mem_append_left _ hp

end Parts

/-! ## What is known about each element -/

section

variable {ctx : Context} {within : Option String} {tags tags' : Tags} {nodes : List Node} {ps : Parts}

/-- what is known about an element that was read, wherever it stands -/
structure Occurrence.ReadFrom (ctx : Context) (name : Option String) (o : Occurrence) : Prop where
  name : o.element.name = name
  tag : ∀ tag, o.element.tagName = some tag → o.tag = some tag
  slots : o.slots = ctx.slotsOf o.element

theorem Context.tagOf_of_tagName {tags : Tags} {e : Element} {tag : String} (h : e.tagName = some tag) :
    ctx.tagOf tags e = some tag := by
  unfold Context.tagOf
  split
  · simp_all
  · exact h

theorem Context.tagOf_of_name {tags : Tags} {e : Element} {name : String} (hn : e.name = some name)
    (ht : e.tagName = none) : ctx.tagOf tags e = (tags.lookup name).or (ctx.tag? name) := by
  unfold Context.tagOf
  simp only [hn, ht]
  cases tags.lookup name with
  | none => rfl
  | some tag => rfl

theorem Context.tagOf_eq (tags : Tags) (e : Element) :
    ctx.tagOf tags e = e.tagName.or (e.name.bind fun name => (tags.lookup name).or (ctx.tag? name)) := by
  cases ht : e.tagName with
  | some tag => rw [Context.tagOf_of_tagName ht, Option.some_or]
  | none =>
    cases hn : e.name with
    | some name => rw [Context.tagOf_of_name hn ht, Option.none_or, Option.bind_some]
    | none => simp [Context.tagOf, hn, ht]

theorem Reads.readFrom (h : Reads ctx within tags nodes tags' ps) : ∀ p ∈ ps.occurrences, p.2.ReadFrom ctx p.1 := by
  induction h with
  | done => simp [Parts.occurrences]
  | text _ _ ih => exact ih
  | comment _ _ _ ih => exact ih
  | superCall _ _ ih => exact ih
  | named hn _ _ _ ihc ih =>
    exact List.forall_mem_cons.2 ⟨⟨hn, fun _ => Context.tagOf_of_tagName, rfl⟩, List.forall_mem_append.2 ⟨ihc, ih⟩⟩
  | anonymous hn _ _ _ ihc ih =>
    exact List.forall_mem_cons.2 ⟨⟨hn, fun _ => id, rfl⟩, List.forall_mem_append.2 ⟨ihc, ih⟩⟩
  | spliced _ _ _ _ _ ihc ih =>
    rw [Parts.occurrences_append]
    exact List.forall_mem_append.2 ⟨ihc, ih⟩

/-- helpers without a name are not read as elements -/
theorem Reads.isHelper_eq_false (h : Reads ctx within tags nodes tags' ps) :
    ∀ o, (none, o) ∈ ps.occurrences → o.element.isHelper = false := by
  induction h with
  | done => simp [Parts.occurrences]
  | text _ _ ih => exact ih
  | comment _ _ _ ih => exact ih
  | superCall _ _ ih => exact ih
  | named _ _ _ _ ihc ih =>
    intro o ho
    rcases List.mem_cons.1 ho with heq | ho
    · cases heq
    · exact (List.mem_append.1 ho).elim (ihc o) (ih o)
  | anonymous _ hh _ _ ihc ih =>
    intro o ho
    rcases List.mem_cons.1 ho with heq | ho
    · cases heq
      exact hh
    · exact (List.mem_append.1 ho).elim (ihc o) (ih o)
  | spliced _ _ _ _ _ ihc ih =>
    intro o ho
    rw [Parts.occurrences_append] at ho
    exact (List.mem_append.1 ho).elim (ihc o) (ih o)

theorem Reads.isHelper_of_hasTags (h : Reads ctx within tags nodes tags' ps) :
    ∀ p ∈ ps.occurrences, HasTags p → p.2.element.isHelper = false := by
  rintro ⟨name, o⟩ hp (hnone | hmarkup)
  · exact h.isHelper_eq_false o (hnone ▸ hp)
  · exact hmarkup

theorem lookup_after (tags : Tags) (e : Element) (name : String) :
    (tags.after e).lookup name =
      ((tags.lookup name).or (if e.name = some name then e.tagName else none)) := by
  unfold Tags.after
  split
  · rename_i name' tag hname htag
    simp only [hname, htag, Option.some.injEq, Tags.note]
    by_cases heq : name' = name
    · subst heq
      cases hlookup : tags.lookup name' with
      | none => simp
      | some tag' => simp [hlookup]
    · rw [if_neg heq, Option.or_none]
      split
      · rfl
      · rw [List.lookup_cons, beq_eq_false_iff_ne.2 (Ne.symm heq)]
  · rename_i hnone
    split
    · rename_i hname
      cases htag : e.tagName with
      | none => rw [Option.or_none]
      | some tag => exact absurd htag (hnone _ _ hname)
    · rw [Option.or_none]

/-- an element without a name gives no tag -/
theorem Tags.after_of_anonymous {e : Element} (h : e.name = none) (tags : Tags) : tags.after e = tags := by
  unfold Tags.after
  rw [h]

/-- the tags after elements have begun one after the other -/
def Tags.afterAll (tags : Tags) (os : List (Option String × Occurrence)) : Tags :=
  os.foldl (fun tags p => tags.after p.2.element) tags

/-- each element has the tag that can be made out when it begins -/
def Context.InTurn (ctx : Context) : Tags → List (Option String × Occurrence) → Prop
  | _, [] => True
  | tags, p :: os => p.2.tag = ctx.tagOf tags p.2.element ∧ ctx.InTurn (tags.after p.2.element) os

theorem Tags.afterAll_append (tags : Tags) (xs ys : List (Option String × Occurrence)) :
    tags.afterAll (xs ++ ys) = (tags.afterAll xs).afterAll ys :=
  List.foldl_append

theorem Context.inTurn_append {tags : Tags} {xs ys : List (Option String × Occurrence)} :
    ctx.InTurn tags (xs ++ ys) ↔ ctx.InTurn tags xs ∧ ctx.InTurn (tags.afterAll xs) ys := by
  induction xs generalizing tags with
  | nil => simp [InTurn, Tags.afterAll]
  | cons p xs ih => simp [InTurn, Tags.afterAll, ih, and_assoc]

theorem Reads.inTurn (h : Reads ctx within tags nodes tags' ps) :
    ctx.InTurn tags ps.occurrences ∧ tags' = tags.afterAll ps.occurrences := by
  induction h with
  | done => exact ⟨trivial, rfl⟩
  | text _ _ ih => exact ih
  | comment _ _ _ ih => exact ih
  | superCall _ _ ih => exact ih
  | named _ _ _ _ ihc ih =>
    obtain ⟨hchildren, rfl⟩ := ihc
    obtain ⟨hrest, rfl⟩ := ih
    exact ⟨⟨rfl, Context.inTurn_append.2 ⟨hchildren, hrest⟩⟩, (Tags.afterAll_append _ _ _).symm⟩
  | @anonymous within tags nodes tags₁ tags₂ children ps e hn _ _ _ ihc ih =>
    obtain ⟨hchildren, rfl⟩ := ihc
    obtain ⟨hrest, rfl⟩ := ih
    have hafter := Tags.after_of_anonymous hn tags
    have htag : e.tagName = ctx.tagOf tags e := by simp [Context.tagOf, hn]
    have hturn : ctx.InTurn (tags.after e) (children.occurrences ++ ps.occurrences) := by
      rw [hafter]
      exact Context.inTurn_append.2 ⟨hchildren, hrest⟩
    refine ⟨⟨htag, hturn⟩, ?_⟩
    rw [← Tags.afterAll_append]
    change _ = (tags.after e).afterAll _
    rw [hafter]
  | spliced _ _ _ _ _ ihc ih =>
    obtain ⟨hchildren, rfl⟩ := ihc
    obtain ⟨hrest, rfl⟩ := ih
    rw [Parts.occurrences_append, Tags.afterAll_append]
    exact ⟨Context.inTurn_append.2 ⟨hchildren, hrest⟩, rfl⟩

theorem lookup_afterAll {tags : Tags} {os : List (Option String × Occurrence)}
    (h : ∀ p ∈ os, p.2.element.name = p.1) (name : String) :
    (tags.afterAll os).lookup name = (tags.lookup name).or (os.findSome? (given (·.element.tagName) name)) := by
  induction os generalizing tags with
  | nil => simp [Tags.afterAll]
  | cons p os ih =>
    rw [List.forall_mem_cons] at h
    change ((tags.after p.2.element).afterAll os).lookup name = _
    rw [ih h.2, lookup_after, h.1, findSome?_cons_or, Option.or_assoc]
    rfl

/-- a name keeps its tag, else it has the tag of the first element that gives it one -/
theorem Reads.lookup_tags (h : Reads ctx within tags nodes tags' ps) (name : String) :
    tags'.lookup name = (tags.lookup name).or (ps.occurrences.findSome? (given (·.element.tagName) name)) := by
  rw [h.inTurn.2, lookup_afterAll fun p hp => (h.readFrom p hp).name]

/-- an element has its own tag, else the one that its name has when it begins -/
theorem Reads.tag_at (h : Reads ctx within tags nodes tags' ps) {before after : List (Option String × Occurrence)}
    {name : Option String} {o : Occurrence} (hsplit : ps.occurrences = before ++ (name, o) :: after) :
    o.tag = o.element.tagName.or (name.bind fun name =>
      ((tags.lookup name).or (before.findSome? (given (·.element.tagName) name))).or (ctx.tag? name)) := by
  have hnames : ∀ p ∈ ps.occurrences, p.2.element.name = p.1 := fun p hp => (h.readFrom p hp).name
  have hturn := h.inTurn.1
  rw [hsplit, List.forall_mem_append, List.forall_mem_cons] at hnames
  rw [hsplit, Context.inTurn_append] at hturn
  obtain ⟨hbefore, hname, -⟩ := hnames
  have htag : o.tag = ctx.tagOf (tags.afterAll before) o.element := hturn.2.1
  rw [htag, Context.tagOf_eq, hname]
  simp only [lookup_afterAll hbefore]

/-- no element of that name has a tag written -/
def Untagged (name : String) (os : List (Option String × Occurrence)) : Prop :=
  ∀ o, (some name, o) ∈ os → o.element.tagName = none

theorem untagged_cons {name : String} {p : Option String × Occurrence} {os : List (Option String × Occurrence)} :
    Untagged name (p :: os) ↔ (p.1 = some name → p.2.element.tagName = none) ∧ Untagged name os := by
  constructor
  · intro h
    refine ⟨?_, fun o ho => h o (List.mem_cons_of_mem _ ho)⟩
    obtain ⟨n, o⟩ := p
    rintro rfl
    exact h o List.mem_cons_self
  · rintro ⟨hp, hos⟩ o ho
    rcases List.mem_cons.1 ho with rfl | ho
    · exact hp rfl
    · exact hos o ho

theorem untagged_append {name : String} {xs ys : List (Option String × Occurrence)} :
    Untagged name (xs ++ ys) ↔ Untagged name xs ∧ Untagged name ys := by
  simp [Untagged, or_imp, forall_and]

theorem untagged_of_ne {name : String} {os : List (Option String × Occurrence)} (h : ∀ p ∈ os, p.1 ≠ some name) :
    Untagged name os :=
  fun _ ho => absurd rfl (h _ ho)

theorem Reads.lookup_tags_of_untagged (h : Reads ctx within tags nodes tags' ps) {name : String}
    (hnone : Untagged name ps.occurrences) : tags'.lookup name = tags.lookup name := by
  rw [h.lookup_tags, findSome?_given_eq_none hnone, Option.or_none]

/-- where no element of a name has a tag written, they all have the one that the name has already -/
theorem Reads.tag_eq (h : Reads ctx within tags nodes tags' ps) {name : String}
    (hnone : Untagged name ps.occurrences) :
    ∀ o, (some name, o) ∈ ps.occurrences → o.tag = (tags.lookup name).or (ctx.tag? name) := by
  intro o ho
  obtain ⟨before, after, hsplit⟩ := List.append_of_mem ho
  have hbefore : Untagged name before := by
    rw [hsplit, untagged_append] at hnone
    exact hnone.1
  have hunwritten : o.element.tagName = none := hnone o ho
  rw [h.tag_at hsplit, hunwritten, Option.none_or, Option.bind_some, findSome?_given_eq_none hbefore, Option.or_none]

end

end BlockTemplates
