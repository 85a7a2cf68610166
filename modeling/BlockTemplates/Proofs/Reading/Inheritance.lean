/-
What an element inherits. Tags, attributes and contents are inherited by name, each from the nearest level that says
something about it: tags from the level that first gives one, contents from the level that defines the name, attributes
from the level with an element of that name that has any. Levels that do not define a name have nothing to say about it,
but a level can define a name and give it no attributes, and then those of a farther level are inherited.

Main statements: `findSome?_of_findDefinition` (what is said about a name is said from its definition on),
`Reading.slots?_of_definition` (the attributes of a definition are those of its name) and `inherited_slots`.
-/
import BlockTemplates.Proofs.Reading.Occurrences
import BlockTemplates.Proofs.Rendering.Resolution

namespace BlockTemplates

open Html Markup Render

/-! ## The nearest level -/

/-- a definition in force is the last one in a level of the chain -/
theorem findDefinition_eq_some {name : String} {rs level : List Reading} {d : Definition}
    (h : findDefinition name rs = some (level, d)) :
    ∃ r rs', level = r :: rs' ∧ level <:+ rs ∧ r.definition? name = some d := by
  induction rs with
  | nil => contradiction
  | cons r rs ih =>
    unfold findDefinition at h
    split at h
    · rename_i d' hd
      cases h
      exact ⟨r, rs, rfl, List.suffix_rfl, hd⟩
    · obtain ⟨r', rs', hlevel, hsuffix, hd⟩ := ih h
      exact ⟨r', rs', hlevel, hsuffix.trans (List.suffix_cons r rs), hd⟩

/-- what levels that do not define a name do not tell is told from its definition on -/
theorem findSome?_of_findDefinition {α : Type} {f : Reading → Option α} {name : String} {rs level : List Reading}
    {d : Definition} (hf : ∀ r ∈ rs, r.definition? name = none → f r = none)
    (h : findDefinition name rs = some (level, d)) : rs.findSome? f = level.findSome? f := by
  induction rs with
  | nil => contradiction
  | cons r rs ih =>
    rw [List.forall_mem_cons] at hf
    unfold findDefinition at h
    split at h
    · cases h
      rfl
    · rename_i hnone
      rw [findSome?_cons_or, hf.1 hnone, Option.none_or, ih hf.2 h]

/-- how a reading of a chain was read -/
theorem reads_of_suffix {ds : List Document} {rs rs' : List Reading} {r : Reading} (h : ReadsAll ds rs)
    (hs : r :: rs' <:+ rs) :
    ∃ helpers nodes, Reads (contextOver helpers rs') none [] nodes r.tags r.parts := by
  induction h with
  | none => simp at hs
  | document _ hreads ih =>
    rcases List.suffix_cons_iff.1 hs with heq | hs
    · cases heq
      exact ⟨_, _, hreads⟩
    · exact ih hs

/-- an element has attributes in a reading exactly if some are written -/
theorem ReadsAll.slots_isSome_iff {ds : List Document} {rs : List Reading} (h : ReadsAll ds rs) :
    ∀ r ∈ rs, ∀ p ∈ r.parts.occurrences, (p.2.slots.isSome ↔ p.2.element.HasAttributes) := by
  intro r hr p hp
  obtain ⟨before, rs', rfl⟩ := List.append_of_mem hr
  obtain ⟨helpers, nodes, hreads⟩ := reads_of_suffix h (List.suffix_append before (r :: rs'))
  rw [(hreads.readFrom p hp).slots]
  exact Context.slotsOf_isSome_iff _ _

theorem Occurrence.slots_eq_none {ds : List Document} {rs : List Reading} (h : ReadsAll ds rs) {r : Reading}
    (hr : r ∈ rs) {name : Option String} {o : Occurrence} (ho : (name, o) ∈ r.parts.occurrences)
    (hwritten : ¬ o.element.HasAttributes) : o.slots = none := by
  rwa [← h.slots_isSome_iff r hr _ ho, Option.not_isSome_iff_eq_none] at hwritten

/-! ## Attributes -/

/-- the attributes of the element of that name which was begun last, among those that have any -/
def Reading.slots? (r : Reading) (name : String) : Option AttributeSlots :=
  r.parts.occurrences.reverse.findSome? fun p => if p.1 = some name then p.2.slots else none

/-- the attributes that are inherited under a name: those in the nearest level that has any -/
def inheritedFrom (name : String) (rs : List Reading) : AttributeSlots := (rs.findSome? (·.slots? name)).getD {}

theorem Reading.slots?_eq_findSome? (r : Reading) (name : String) :
    r.slots? name = r.parts.occurrences.reverse.findSome? (given (·.slots) name) := rfl

theorem lookup_filterMap_slots (name : String) (os : List (Option String × Occurrence)) :
    (os.filterMap fun p => p.1.bind fun n => p.2.slots.map (n, ·)).lookup name =
      os.findSome? (given (·.slots) name) := by
  induction os with
  | nil => rfl
  | cons p os ih =>
    obtain ⟨_ | n, o⟩ := p
    · simpa [findSome?_cons_or, given] using ih
    · cases hs : o.slots with
      | none => simpa [findSome?_cons_or, given, hs] using ih
      | some slots =>
        by_cases hn : n = name
        · simp [given, hs, hn]
        · have hne : (name == n) = false := beq_eq_false_iff_ne.2 (Ne.symm hn)
          simpa [findSome?_cons_or, given, hs, hn, List.lookup_cons, hne] using ih

theorem Reading.lookup_slotLists (r : Reading) (name : String) :
    r.parts.slotLists.reverse.lookup name = r.slots? name := by
  rw [Parts.slotLists_eq, ← List.filterMap_reverse]
  exact lookup_filterMap_slots name _

/-- the attributes in force at compile time are those inherited -/
theorem Realised.getD_findSlots {rs : List Reading} {ls : List Level} (h : Realised rs ls) (name : String) :
    (BlockTemplates.findSlots name ls).getD {} = inheritedFrom name rs := by
  rw [h.findSlots]
  simp only [Reading.lookup_slotLists]
  rfl

theorem Reading.slots?_eq_none {r : Reading} {name : String}
    (h : ∀ o, (some name, o) ∈ r.parts.occurrences → o.slots = none) : r.slots? name = none :=
  findSome?_given_eq_none fun o ho => h o (List.mem_reverse.1 ho)

theorem Reading.slots?_of_undefined {r : Reading} {name : String} (h : r.definition? name = none) :
    r.slots? name = none :=
  r.slots?_eq_none fun _ ho => absurd rfl (Parts.fst_ne_of_lookup h _ ho)

/-- a definition with attributes has those of its name, if no element of that name within it has any -/
theorem Reading.slots?_of_definition {r : Reading} {name : String} {d : Definition} {slots : AttributeSlots}
    (h : r.definition? name = some d) (hslots : d.occurrence.slots = some slots)
    (hinner : ∀ o, (some name, o) ∈ d.children.occurrences → o.slots = none) : r.slots? name = some slots := by
  obtain ⟨before, after, heq, hafter⟩ := Parts.occurrences_of_definition h
  have hskip : (d.children.occurrences ++ after).reverse.findSome? (given (·.slots) name) = none := by
    refine findSome?_given_eq_none fun o ho => ?_
    rcases List.mem_append.1 (List.mem_reverse.1 ho) with ho | ho
    · exact hinner o ho
    · exact absurd rfl (hafter _ ho)
  rw [Reading.slots?_eq_findSome?, heq, List.reverse_append, List.reverse_cons, List.findSome?_append,
    List.findSome?_append, hskip, Option.none_or, findSome?_cons_or]
  simp [given, hslots]

/-- the attributes of a definition in force are what is inherited under its name -/
theorem inheritedFrom_of_findDefinition {rs level : List Reading} {name : String} {d : Definition}
    {slots : AttributeSlots} (hd : findDefinition name rs = some (level, d)) (hslots : d.occurrence.slots = some slots)
    (hinner : ∀ o, (some name, o) ∈ d.children.occurrences → o.slots = none) : inheritedFrom name rs = slots := by
  obtain ⟨r, rs', rfl, -, hdef⟩ := findDefinition_eq_some hd
  unfold inheritedFrom
  rw [findSome?_of_findDefinition (fun _ _ hnone => Reading.slots?_of_undefined hnone) hd, findSome?_cons_or,
    Reading.slots?_of_definition hdef hslots hinner]
  rfl

theorem inheritedFrom_eq_empty {rs : List Reading} {name : String}
    (h : ∀ r ∈ rs, ∀ o, (some name, o) ∈ r.parts.occurrences → o.slots = none) : inheritedFrom name rs = {} := by
  unfold inheritedFrom
  rw [List.findSome?_eq_none_iff.2 fun r hr => Reading.slots?_eq_none (h r hr)]
  rfl

/-! ## What a single definition leaves to its name -/

section

variable {ds : List Document} {rs rs' : List Reading} {r : Reading} {name : String} {d : Definition}
  (hrs : ReadsAll ds rs) (hd : findDefinition name rs = some (r :: rs', d))
  (honce : r.parts.definitions.countP (·.1 = name) = 1)
include hrs hd honce

/-- the tag of a definition that is the only one in its level is that of its name -/
theorem tag_of_findDefinition : rs.findSome? (·.tags.lookup name) = d.occurrence.tag := by
  obtain ⟨_, _, heq, hsuffix, hdef⟩ := findDefinition_eq_some hd
  cases heq
  have hundefined : ∀ r ∈ rs, r.definition? name = none → r.tags.lookup name = none := by
    intro r hr hnone
    obtain ⟨before, rs', rfl⟩ := List.append_of_mem hr
    obtain ⟨helpers, nodes, hreads⟩ := reads_of_suffix hrs (List.suffix_append before (r :: rs'))
    exact hreads.lookup_tags_of_untagged (untagged_of_ne (Parts.fst_ne_of_lookup hnone))
  obtain ⟨helpers, nodes, hreads⟩ := reads_of_suffix hrs hsuffix
  obtain ⟨before, after, heq, hbefore, hafter, -⟩ := Parts.occurrences_of_once hdef honce
  have hmem : (some name, d.occurrence) ∈ r.parts.occurrences := by simp [heq]
  have hown : r.tags.lookup name = d.occurrence.element.tagName := by
    rw [hreads.lookup_tags, List.lookup_nil, Option.none_or, heq, List.findSome?_append, findSome?_cons_or,
      findSome?_given_of_ne _ hbefore, findSome?_given_of_ne _ hafter, Option.none_or, Option.or_none]
    exact if_pos rfl
  rw [findSome?_of_findDefinition hundefined hd, findSome?_cons_or, hown]
  cases htag : d.occurrence.element.tagName with
  | some tag => rw [Option.some_or, (hreads.readFrom _ hmem).tag tag htag]
  | none =>
    have hnone : Untagged name r.parts.occurrences := by
      rw [heq, untagged_append, untagged_cons]
      exact ⟨untagged_of_ne hbefore, fun _ => htag, untagged_of_ne hafter⟩
    rw [hreads.tag_eq hnone _ hmem]
    rfl

/-- so are its attributes, unless it has none and farther levels have some -/
theorem inheritedFrom_of_once
    (hattributes : d.occurrence.element.HasAttributes ∨
      ∀ r ∈ rs, ∀ o, (some name, o) ∈ r.parts.occurrences → ¬ o.element.HasAttributes) :
    inheritedFrom name rs = d.occurrence.slots.getD {} := by
  obtain ⟨_, _, heq, hsuffix, hdef⟩ := findDefinition_eq_some hd
  cases heq
  obtain ⟨before, after, heq, -, hafter, hchildren⟩ := Parts.occurrences_of_once hdef honce
  have hr : r ∈ rs := hsuffix.subset List.mem_cons_self
  have hmem : (some name, d.occurrence) ∈ r.parts.occurrences := by simp [heq]
  cases hslots : d.occurrence.slots with
  | some slots =>
    exact inheritedFrom_of_findDefinition hd hslots fun o ho => absurd rfl (hafter _ (hchildren _ ho))
  | none =>
    have hwritten : ¬ d.occurrence.element.HasAttributes := by
      rw [← hrs.slots_isSome_iff r hr _ hmem, hslots]
      simp
    exact inheritedFrom_eq_empty fun r' hr' o ho =>
      Occurrence.slots_eq_none hrs hr' ho (hattributes.resolve_left hwritten r' hr' o ho)

end

/-! ## What a super call among attributes starts from -/

/-- a super call among attributes starts from those that its target has in the chain -/
theorem slotsOf_superCall {helpers : Registry} {rs : List Reading} {e : Element} {call : SuperCall} {name : String}
    {list : List Attribute} (ha : e.attributes = some ⟨some call, list⟩)
    (htarget : (call.elementName <|> e.name) = some name) :
    (contextOver helpers rs).slotsOf e = some ((inheritedFrom name rs).setAll list) := by
  unfold Context.slotsOf
  simp only [ha, htarget, Option.bind_some]
  unfold contextOver inheritedFrom
  simp only [Reading.lookup_slotLists]

theorem inheritedSlots_eq {t : Template} {rs : List Reading} (h : Realised rs t.chain) {call : SuperCall}
    {own : Option String} {name : String} (htarget : (call.elementName <|> own) = some name) :
    inheritedSlots t.chain (some call) own = .ok (inheritedFrom name rs) := by
  unfold inheritedSlots
  simp only [htarget]
  rw [if_neg (by simp [Template.chain]), h.getD_findSlots]

/-- the elements of a definition in force, itself included, are among those of its level -/
theorem mem_occurrences_of_findDefinition {rs level : List Reading} {name : String} {d : Definition}
    (hd : findDefinition name rs = some (level, d)) :
    ∃ r ∈ rs, (some name, d.occurrence) ∈ r.parts.occurrences ∧
      ∀ p ∈ d.children.occurrences, p ∈ r.parts.occurrences := by
  obtain ⟨r, rs', rfl, hsuffix, hdef⟩ := findDefinition_eq_some hd
  obtain ⟨before, after, heq, -⟩ := Parts.occurrences_of_definition hdef
  refine ⟨r, hsuffix.subset List.mem_cons_self, ?_, ?_⟩
  · simp [heq]
  · intro p hp
    simp [heq, hp]

/-- **Attributes are inherited by name.** In every extension, a super call among the attributes of an element starts
from the attributes of the element with the name it calls that was begun last, among those that have any, in the nearest
level with such an element, or from none. These are the attributes of the definition in force, whose content a super
call in content stands for, if it has any and no element of its name within it has. -/
theorem inherited_slots {ds : List Document} {t : Template} {rs level : List Reading} {name : String} {d : Definition}
    (h : Compiled ds (some t)) (hrs : ReadsAll ds rs) (hd : findDefinition name rs = some (level, d)) :
    (∃ owner, findBody name t.chain = some (owner, d.body name)) ∧
      (∀ call own, (call.elementName <|> own) = some name →
        inheritedSlots t.chain (some call) own = .ok (inheritedFrom name rs)) ∧
      (∀ (e : Document) t', (compile e.block (some t) e.options).result = .ok t' →
        ∃ r, ReadsAll (e :: ds) (r :: rs) ∧ Realised (r :: rs) t'.chain ∧
          ∀ p ∈ r.parts.occurrences, ∀ call list, p.2.element.attributes = some ⟨some call, list⟩ →
            (call.elementName <|> p.2.element.name) = some name →
            p.2.slots = some ((inheritedFrom name rs).setAll list)) ∧
      (d.occurrence.element.HasAttributes →
        (∀ o, (some name, o) ∈ d.children.occurrences → ¬ o.element.HasAttributes) →
        d.occurrence.slots = some (inheritedFrom name rs)) ∧
      ((∀ r ∈ rs, ∀ o, (some name, o) ∈ r.parts.occurrences → ¬ o.element.HasAttributes) →
        inheritedFrom name rs = {}) := by
  obtain ⟨rs₁, hrs₁, hleaf⟩ := compiled_reads h
  cases hrs.unique hrs₁
  change Realised rs t.chain at hleaf
  refine ⟨?_, fun call own htarget => inheritedSlots_eq hleaf htarget, ?_, ?_, ?_⟩
  · rcases hleaf.findBody name with ⟨-, hundefined⟩ | ⟨_, _, l, ls, d', hbody, hd', -⟩
    · rw [hundefined] at hd
      contradiction
    · cases hd.symm.trans hd'
      exact ⟨l :: ls, hbody⟩
  · intro e t' he
    obtain ⟨rs', hreads, hrealised⟩ := draft_reads h (compile_eq_ok.1 he).1
    cases hreads with
    | @document _ rs₂ tags parts _ hrs₂ hr =>
      cases hrs.unique hrs₂
      refine ⟨_, .document hrs hr, hrealised, ?_⟩
      intro p hp call list ha htarget
      rw [(hr.readFrom p hp).slots, slotsOf_superCall ha htarget]
  · intro hwritten hinner
    obtain ⟨r, hr, hmem, hchildren⟩ := mem_occurrences_of_findDefinition hd
    obtain ⟨slots, hslots⟩ := Option.isSome_iff_exists.1 ((hrs.slots_isSome_iff r hr _ hmem).2 hwritten)
    rw [inheritedFrom_of_findDefinition hd hslots fun o ho =>
      Occurrence.slots_eq_none hrs hr (hchildren _ ho) (hinner o ho), hslots]
  · intro hunwritten
    exact inheritedFrom_eq_empty fun r hr o ho => Occurrence.slots_eq_none hrs hr ho (hunwritten r hr o ho)

/-- an element with an attribute -/
def titled : Document where
  block := ⟨some "a", [.element ⟨false, some "span", some [some "m"], some ⟨none, [⟨"x", some "1"⟩]⟩, none⟩]⟩

/-- the same element without attributes -/
def untitled : Document where
  block := ⟨some "b", [.element ⟨false, none, some [some "m"], none, some [.text "t"]⟩]⟩

/-- the same element with the attributes that it inherits -/
def titledAgain : Document where
  block := ⟨some "c", [.element ⟨false, none, some [some "m"], some ⟨some {}, []⟩, none⟩]⟩

theorem titled_compiled : ∃ t, Compiled [titled] (some t) := ⟨_, .document _ .none rfl⟩

theorem titled_reads : ∃ rs level d, ReadsAll [titled] rs ∧ findDefinition "m" rs = some (level, d) ∧
    d.occurrence.element.HasAttributes ∧ (∀ o, (some "m", o) ∈ d.children.occurrences → ¬ o.element.HasAttributes) ∧
    d.occurrence.slots = some ⟨[("x", some "1")]⟩ := by
  refine ⟨_, _, _, .document .none (.named rfl rfl .done .done), rfl, ⟨_, rfl, .inl (by simp)⟩, ?_, rfl⟩
  simp [Parts.occurrences]

theorem titled_is_inherited :
    ∃ t, Compiled [titled] (some t) ∧ inheritedSlots t.chain (some {}) (some "m") = .ok ⟨[("x", some "1")]⟩ := by
  obtain ⟨t, h⟩ := titled_compiled
  obtain ⟨rs, level, d, hrs, hd, hwritten, hinner, hslots⟩ := titled_reads
  obtain ⟨-, hinherited, -, hdefinition, -⟩ := inherited_slots h hrs hd
  have heq : inheritedFrom "m" rs = ⟨[("x", some "1")]⟩ :=
    (Option.some.inj (hslots.symm.trans (hdefinition hwritten hinner))).symm
  exact ⟨t, h, heq ▸ hinherited {} (some "m") rfl⟩

theorem untitled_reads : ∃ rs level d, ReadsAll [untitled, titled] rs ∧ findDefinition "m" rs = some (level, d) ∧
    d.occurrence.slots = none :=
  ⟨_, _, _, .document (.document .none (.named rfl rfl .done .done)) (.named rfl rfl (.text "t" .done) .done), rfl, rfl⟩

/-- a root without the element -/
def plain : Document where
  block := ⟨some "a", [.element ⟨false, some "p", none, none, none⟩]⟩

/-- the element inside itself, which nothing invokes -/
def enclosed : Document where
  block := ⟨some "b", [.element ⟨false, none, some [some "m"], some ⟨none, [⟨"x", some "1"⟩]⟩,
    some [.element ⟨false, none, some [some "m"], some ⟨none, [⟨"y", some "2"⟩]⟩, none⟩]⟩]⟩

theorem enclosed_reads : ∃ rs level d, ReadsAll [enclosed, plain] rs ∧ findDefinition "m" rs = some (level, d) ∧
    d.occurrence.slots = some ⟨[("x", some "1")]⟩ :=
  ⟨_, _, _, .document (.document .none (.anonymous rfl rfl .done .done))
    (.named rfl rfl (.named rfl rfl .done .done) .done), rfl, rfl⟩

/-- what is inherited need not be what the definition in force has: attributes that an element has lost on the way
return from where it had them, and those of an element inside the definition come before its own -/
theorem dropped_attributes_return :
    (∃ t rs level d, Compiled [untitled, titled] (some t) ∧ ReadsAll [untitled, titled] rs ∧
      findDefinition "m" rs = some (level, d) ∧ d.occurrence.slots = none ∧
      t.render = .ok "<span class=\"b__m a__m\">t</span>" ∧
      inheritedSlots t.chain (some {}) (some "m") = .ok ⟨[("x", some "1")]⟩ ∧
      inheritedSlots t.chain (some {}) (some "m") ≠ .ok (d.occurrence.slots.getD {}) ∧
      ∃ t', (compile titledAgain.block (some t) titledAgain.options).result = .ok t' ∧
        t'.render = .ok "<span class=\"c__m b__m a__m\" x=\"1\"></span>") ∧
    ∃ t rs level d, Compiled [enclosed, plain] (some t) ∧ ReadsAll [enclosed, plain] rs ∧
      findDefinition "m" rs = some (level, d) ∧ d.occurrence.slots = some ⟨[("x", some "1")]⟩ ∧
      inheritedSlots t.chain (some {}) (some "m") = .ok ⟨[("y", some "2")]⟩ := by
  constructor
  · obtain ⟨rs, level, d, hrs, hd, hslots⟩ := untitled_reads
    obtain ⟨base, hbase⟩ : ∃ base, (compile titled.block none titled.options).result = .ok base := ⟨_, rfl⟩
    obtain ⟨t, ht, hrender, hinherited, t', ht', hrender'⟩ :
        ∃ t, (compile untitled.block (some base) untitled.options).result = .ok t ∧
          t.render = .ok "<span class=\"b__m a__m\">t</span>" ∧
          inheritedSlots t.chain (some {}) (some "m") = .ok ⟨[("x", some "1")]⟩ ∧
          ∃ t', (compile titledAgain.block (some t) titledAgain.options).result = .ok t' ∧
            t'.render = .ok "<span class=\"c__m b__m a__m\" x=\"1\"></span>" := by
      cases hbase
      exact ⟨_, rfl, rfl, rfl, _, rfl, rfl⟩
    have hne : inheritedSlots t.chain (some {}) (some "m") ≠ .ok (d.occurrence.slots.getD {}) := by
      rw [hinherited, hslots]
      simp
    have hcompiled : Compiled [untitled, titled] (some t) := .document _ (.document _ .none hbase) ht
    exact ⟨t, rs, level, d, hcompiled, hrs, hd, hslots, hrender, hinherited, hne, t', ht', hrender'⟩
  · obtain ⟨rs, level, d, hrs, hd, hslots⟩ := enclosed_reads
    obtain ⟨base, hbase⟩ : ∃ base, (compile plain.block none plain.options).result = .ok base := ⟨_, rfl⟩
    obtain ⟨t, ht, hinherited⟩ : ∃ t, (compile enclosed.block (some base) enclosed.options).result = .ok t ∧
        inheritedSlots t.chain (some {}) (some "m") = .ok ⟨[("y", some "2")]⟩ := by
      cases hbase
      exact ⟨_, rfl, rfl⟩
    exact ⟨t, rs, level, d, .document _ (.document _ .none hbase) ht, hrs, hd, hslots, hinherited⟩

end BlockTemplates
