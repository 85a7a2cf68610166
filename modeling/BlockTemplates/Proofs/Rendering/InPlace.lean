/-
Definitions where they stand. Where a document has one definition of a name and nothing overrides it, the element of that
name expands to the same markup whether it is looked up or written where it stands.

Main statements: `Expands.inlined` (from the definition to the place), `Expands.looked_up` (and back),
`compile_root_of_inlined` (root documents that are read alike compile alike and render the same) and
`compile_root_of_replaces`.
-/
import BlockTemplates.Proofs.Compiling.PlainVerdicts
import BlockTemplates.Proofs.Reading.Inlining
import BlockTemplates.Proofs.Rendering.Commuting
import BlockTemplates.Proofs.Rendering.Overriding

namespace BlockTemplates

open Html Markup Render

/-! ## One run of content after the other -/

section

variable {chain owner : List Reading} {prefixes : List String} {ps qs : Parts} {s t : String}

theorem Expands.append (h : Expands chain prefixes owner ps s) (h' : Expands chain prefixes owner qs t) :
    Expands chain prefixes owner (ps.append qs) (s ++ t) := by
  induction h with
  | done => exact (String.empty_append (s := t)).symm ▸ h'
  | text value _ ih =>
    rw [String.append_assoc]
    exact .text value (ih h')
  | anonymous hc _ _ ih =>
    rw [String.append_assoc]
    exact .anonymous hc (ih h')
  | named hd hc _ _ ih =>
    rw [String.append_assoc]
    exact .named hd hc (ih h')
  | superCall hd hc _ _ ih =>
    rw [String.append_assoc]
    exact .superCall hd hc (ih h')

theorem Expands.of_append (h : Expands chain prefixes owner (ps.append qs) s) :
    ∃ s₁ s₂, s = s₁ ++ s₂ ∧ Expands chain prefixes owner ps s₁ ∧ Expands chain prefixes owner qs s₂ := by
  induction ps generalizing s with
  | done => exact ⟨"", s, by simp, .done, h⟩
  | text value rest ih =>
    cases h with
    | text _ h =>
      obtain ⟨s₁, s₂, rfl, h₁, h₂⟩ := ih h
      exact ⟨_, s₂, (String.append_assoc ..).symm, .text value h₁, h₂⟩
  | anonymous o children rest _ ih =>
    cases h with
    | anonymous hc h =>
      obtain ⟨s₁, s₂, rfl, h₁, h₂⟩ := ih h
      exact ⟨_, s₂, (String.append_assoc ..).symm, .anonymous hc h₁, h₂⟩
  | named name o children rest _ ih =>
    cases h with
    | named hd hc h =>
      obtain ⟨s₁, s₂, rfl, h₁, h₂⟩ := ih h
      exact ⟨_, s₂, (String.append_assoc ..).symm, .named hd hc h₁, h₂⟩
  | superCall target rest ih =>
    cases h with
    | superCall hd hc h =>
      obtain ⟨s₁, s₂, rfl, h₁, h₂⟩ := ih h
      exact ⟨_, s₂, (String.append_assoc ..).symm, .superCall hd hc h₁, h₂⟩

end

/-! ## From the definition to the place -/

section

variable {exact : Prop} {lost : Option (String × Definition)} {r r' : Reading} {rs : List Reading}
  {prefixes : List String}

/-- the definitions of a reading and of one that is the same but for `lost`, on the same levels -/
theorem findDefinition_of_inlined (rs : List Reading) (h : r.parts.Inlined exact lost r'.parts) {name : String}
    (hname : ∀ l ∈ lost, name ≠ l.1) :
    findDefinition name (r :: rs) = findDefinition name rs ∧ findDefinition name (r' :: rs) = findDefinition name rs ∨
      ∃ d d', findDefinition name (r :: rs) = some (r :: rs, d) ∧ findDefinition name (r' :: rs) = some (r' :: rs, d') ∧
        d.Inlined exact lost d' := by
  have hlookup := h.lookup hname
  change Option.Rel _ (r.definition? name) (r'.definition? name) at hlookup
  cases hd : r.definition? name with
  | none =>
    rw [hd] at hlookup
    cases hd' : r'.definition? name with
    | none => exact .inl ⟨findDefinition_of_undefined hd, findDefinition_of_undefined hd'⟩
    | some d' =>
      rw [hd'] at hlookup
      cases hlookup
  | some d =>
    rw [hd] at hlookup
    cases hd' : r'.definition? name with
    | none =>
      rw [hd'] at hlookup
      cases hlookup
    | some d' =>
      rw [hd'] at hlookup
      cases hlookup with
      | some hinlined => exact .inr ⟨d, d', findDefinition_of_defined hd, findDefinition_of_defined hd', hinlined⟩

/-- the name that is lost is not defined any more -/
theorem definition?_of_lost (h : r.parts.Inlined exact lost r'.parts) {l : String × Definition} (hl : lost = some l) :
    r'.definition? l.1 = none := by
  cases hdef : r'.definition? l.1 with
  | none => rfl
  | some d => exact (h.ne_of_mem_definitions hl (Reading.mem_of_definition? hdef) rfl).elim

/-- the definition of the name that is lost, in a root -/
theorem findDefinition_of_lost (h : r.parts.Inlined exact lost r'.parts) {l : String × Definition} (hl : lost = some l)
    {level : List Reading} {d : Definition} (hd : findDefinition l.1 [r] = some (level, d)) : level = [r] ∧ d = l.2 := by
  cases hdef : r.definition? l.1 with
  | none =>
    rw [findDefinition_of_undefined hdef] at hd
    contradiction
  | some d₁ =>
    rw [findDefinition_of_defined hdef] at hd
    cases hd
    exact ⟨rfl, congrArg Prod.snd (h.eq_of_mem_definitions hl (Reading.mem_of_definition? hdef) rfl)⟩

variable (hparts : r.parts.Inlined exact lost r'.parts) (hroot : rs = [] ∨ lost = none)
include hparts hroot

/-- parts that are the same but for `lost` expand to the same markup, on top of the same levels -/
theorem Expands.inlined {owner owner' : List Reading} {ps qs : Parts} {s : String}
    (h : Expands (r :: rs) prefixes owner ps s) (hps : ps.Inlined exact lost qs) (howner : owner'.tail = owner.tail)
    (htail : owner.tail = [] ∨ lost = none) : Expands (r' :: rs) prefixes owner' qs s := by
  induction h generalizing qs owner' with
  | done =>
    cases hps
    exact .done
  | text value _ ih =>
    cases hps with
    | text _ hps => exact .text value (ih hps howner htail)
  | anonymous _ _ ihc ih =>
    cases hps with
    | anonymous ho hc hps =>
      rw [← ho.opening, ← ho.closing]
      exact .anonymous (ihc hc howner htail) (ih hps howner htail)
  | named hd _ _ ihc ih =>
    have hrootOf {l : String × Definition} (hl : lost = some l) : rs = [] := hroot.resolve_right (by simp [hl])
    cases hps with
    | named hname _ _ hps =>
      rcases findDefinition_of_inlined rs hparts hname with ⟨hfar, hfar'⟩ | ⟨d₁, d₁', hnear, hnear', ho, hc⟩
      · -- a level above defines the name, so that nothing is lost
        rw [hfar] at hd
        have hnone : lost = none := hroot.resolve_left fun hnil => by simp [hnil, findDefinition] at hd
        exact .named (hfar'.trans hd) (ihc (.refl (by simp [hnone])) rfl (.inr hnone)) (ih hps howner htail)
      · cases hd.symm.trans hnear
        rw [← ho.around]
        exact .named hnear' (ihc hc rfl hroot) (ih hps howner htail)
    | unnamed hl hh ho hc hps =>
      cases hrootOf hl
      obtain ⟨rfl, rfl⟩ := findDefinition_of_lost hparts hl hd
      have hnil := htail.resolve_right (by simp [hl])
      have hc' := ihc hc (howner.trans hnil) (.inl rfl)
      simp only [Occurrence.around, hh, Bool.false_eq_true, if_false]
      rw [← ho.opening, ← ho.closing]
      exact .anonymous hc' (ih hps howner htail)
    | opened hl hh hc hps =>
      cases hrootOf hl
      obtain ⟨rfl, rfl⟩ := findDefinition_of_lost hparts hl hd
      have hnil := htail.resolve_right (by simp [hl])
      have hc' := ihc hc (howner.trans hnil) (.inl rfl)
      simp only [Occurrence.around, hh, if_true]
      exact hc'.append (ih hps howner htail)
  | superCall hd _ _ ihc ih =>
    cases hps with
    | superCall _ hps =>
      rcases htail with hnil | hnone
      · rw [hnil] at hd
        contradiction
      · have hself : ∀ ps : Parts, ps.Inlined exact lost ps := fun ps => .refl (by simp [hnone])
        exact .superCall (howner ▸ hd) (ihc (hself _) rfl (.inr hnone)) (ih hps howner (.inr hnone))

end

/-! ## From the place to the definition -/

/-- what stands in the place of a definition in force can be looked up -/
theorem Expands.looked_up {exact : Prop} {lost : Option (String × Definition)} {chain owner : List Reading}
    {prefixes : List String} {ps qs : Parts} {s : String} (h : Expands chain prefixes owner qs s)
    (hps : ps.Inlined exact lost qs) (hlost : ∀ l ∈ lost, findDefinition l.1 chain = some (owner, l.2)) :
    Expands chain prefixes owner ps s := by
  induction hps generalizing s with
  | done => exact h
  | text value _ ih =>
    cases h with
    | text _ h => exact .text value (ih h)
  | superCall target _ ih =>
    cases h with
    | superCall hd hc h => exact .superCall hd hc (ih h)
  | anonymous ho _ _ ihc ih =>
    cases h with
    | anonymous hc h =>
      rw [ho.opening, ho.closing]
      exact .anonymous (ihc hc) (ih h)
  | named _ _ _ _ _ ih =>
    cases h with
    | named hd hc h => exact .named hd hc (ih h)
  | @unnamed name o o' children children' ps qs hl hh ho _ _ ihc ih =>
    cases h with
    | anonymous hc h =>
      have hrestored : Expands chain prefixes owner (.named name o children ps) _ :=
        .named (hlost _ hl) (ihc hc) (ih h)
      simp only [Occurrence.around, hh, Bool.false_eq_true, if_false] at hrestored
      rwa [ho.opening, ho.closing]
  | @opened name o children children' ps qs hl hh _ _ ihc ih =>
    obtain ⟨s₁, s₂, rfl, hc, h⟩ := h.of_append
    have hrestored : Expands chain prefixes owner (.named name o children ps) _ :=
      .named (hlost _ hl) (ihc hc) (ih h)
    simpa only [Occurrence.around, hh, if_true] using hrestored

section

variable {exact : Prop} {lost : Option (String × Definition)} {r r' : Reading} {prefixes : List String}
  (hparts : r.parts.Inlined exact lost r'.parts) (hlost : ∀ l ∈ lost, r.definition? l.1 = some l.2)
include hparts hlost

/-- what expands with the definitions of a root that are left does so with those of the root that has all -/
theorem Expands.recalled {owner owner' : List Reading} {ps : Parts} {s : String}
    (h : Expands [r'] prefixes owner' ps s) (howner : owner.tail = []) (howner' : owner'.tail = []) :
    Expands [r] prefixes owner ps s := by
  induction h generalizing owner with
  | done => exact .done
  | text value _ ih => exact .text value (ih howner howner')
  | anonymous _ _ ihc ih => exact .anonymous (ihc howner howner') (ih howner howner')
  | @named _ _ name _ _ _ _ _ _ hd _ _ ihc ih =>
    have hname : ∀ l ∈ lost, name ≠ l.1 := by
      rintro l hl rfl
      rw [findDefinition_of_undefined (definition?_of_lost hparts hl)] at hd
      contradiction
    rcases findDefinition_of_inlined [] hparts hname with ⟨-, hnone⟩ | ⟨d, d', hdef, hdef', ho, hc⟩
    · rw [hnone] at hd
      contradiction
    · cases hd.symm.trans hdef'
      rw [ho.around]
      have hcontent := (@ihc [r] rfl rfl).looked_up hc fun l hl => findDefinition_of_defined (hlost l hl)
      exact .named hdef hcontent (ih howner howner')
  | superCall hd =>
    rw [howner'] at hd
    contradiction

end

/-! ## Root documents -/

theorem expansion_root_iff {d : Document} {tags : Tags} {ps : Parts} {text : String}
    (h : Reads (contextOver d.options.helpers []) none [] d.block.content tags ps) :
    Expansion [d] text ↔
      Expands [⟨prefixesOver d.blockNames [], ps, tags⟩] (prefixesOver d.blockNames [])
        [⟨prefixesOver d.blockNames [], ps, tags⟩] ps text := by
  constructor
  · rintro ⟨leaf, rs, root, hreads, hroot, hexpands⟩
    cases hreads.unique (.document .none h)
    cases hroot
    exact hexpands
  · exact fun hexpands => ⟨_, [], _, .document .none h, rfl, hexpands⟩

/-- a root that is read like another one but for a definition that is put where it stands expands to the same markup -/
theorem expansion_iff_of_inlined {d d' : Document} {exact : Prop} {lost : Option String} {tags : Tags} {ps : Parts}
    {text : String} (hnames : d'.blockNames = d.blockNames)
    (h : Reads (contextOver d.options.helpers []) none [] d.block.content tags ps)
    (h' : (contextOver d'.options.helpers []).ReadsInlined exact lost none [] d'.block.content tags ps) :
    Expansion [d] text ↔ Expansion [d'] text := by
  obtain ⟨l, tags', qs, -, hmem, hreads', -, hinlined⟩ := h'
  let r : Reading := ⟨prefixesOver d.blockNames [], ps, tags⟩
  let r' : Reading := ⟨prefixesOver d.blockNames [], qs, tags'⟩
  have hparts : r.parts.Inlined exact l r'.parts := hinlined
  have hlost : ∀ p ∈ l, r.definition? p.1 = some p.2 := by
    intro p hp
    cases hdef : r.definition? p.1 with
    | none => exact absurd rfl (Parts.fst_ne_of_lookup hdef _ (Parts.mem_occurrences_of_definition (hmem p hp)).1)
    | some d =>
      have heq := hparts.eq_of_mem_definitions hp (Reading.mem_of_definition? hdef) rfl
      rw [← heq]
  rw [expansion_root_iff h, expansion_root_iff hreads', hnames]
  constructor
  · intro hexpands
    exact hexpands.inlined hparts (.inl rfl) hinlined rfl (.inl rfl)
  · intro hexpands
    refine (Expands.recalled hparts hlost hexpands rfl rfl).looked_up hinlined ?_
    exact fun p hp => findDefinition_of_defined (hlost p hp)

/-- **Roots that are read alike.** If root documents are in order alike, and one is read like the other but for a
definition that is put where it stands, they compile alike and are rendered to the same markup. -/
theorem compile_root_of_inlined {d d' : Document} {exact : Prop} {lost : Option String}
    (hnames : d'.blockNames = d.blockNames) (hhelpers : d'.options.helpers = d.options.helpers)
    (hdraft : (∃ t, draft d none = .ok t) ↔ ∃ t', draft d' none = .ok t')
    (hreplaces : (∃ t, draft d none = .ok t) →
      (contextOver d.options.helpers []).Replaces exact lost d.block.content d'.block.content) :
    ((∃ t, (compile d.block none d.options).result = .ok t) ↔
        ∃ t', (compile d'.block none d'.options).result = .ok t') ∧
      ∀ t t', (compile d.block none d.options).result = .ok t → (compile d'.block none d'.options).result = .ok t' →
        ∃ text, t.render = .ok text ∧ t'.render = .ok text := by
  have hexpansion {t : Template} (ht : draft d none = .ok t) (text : String) :
      Expansion [d] text ↔ Expansion [d'] text := by
    obtain ⟨rs, hreads, -⟩ := draft_reads .none ht
    cases hreads with
    | document hnone hreads =>
      cases hnone
      exact expansion_iff_of_inlined hnames hreads (hhelpers ▸ hreplaces ⟨t, ht⟩ (fun _ _ => rfl) hreads)
  have hrendered {d : Document} {t : Template} (ht : (compile d.block none d.options).result = .ok t) :
      ∃ text, t.render = .ok text ∧ Expansion [d] text := by
    have hcompiled : Compiled [d] (some t) := .document d .none ht
    obtain ⟨text, htext⟩ := render_of_compiled hcompiled
    exact ⟨text, htext, expansion_of_render hcompiled htext⟩
  refine ⟨⟨?_, ?_⟩, ?_⟩
  · rintro ⟨t, ht⟩
    obtain ⟨text, -, htext⟩ := hrendered ht
    obtain ⟨hd, -⟩ := compile_eq_ok.1 ht
    obtain ⟨t', hd'⟩ := hdraft.1 ⟨t, hd⟩
    exact ⟨t', (compile_of_expansion .none hd' ((hexpansion hd text).1 htext)).1⟩
  · rintro ⟨t', ht'⟩
    obtain ⟨text, -, htext⟩ := hrendered ht'
    obtain ⟨t, hd⟩ := hdraft.2 ⟨t', (compile_eq_ok.1 ht').1⟩
    exact ⟨t, (compile_of_expansion .none hd ((hexpansion hd text).2 htext)).1⟩
  · intro t t' ht ht'
    obtain ⟨text, hrender, htext⟩ := hrendered ht
    obtain ⟨hd, -⟩ := compile_eq_ok.1 ht
    obtain ⟨hd', -⟩ := compile_eq_ok.1 ht'
    exact ⟨text, hrender, (compile_of_expansion .none hd' ((hexpansion hd text).1 htext)).2⟩

/-- in a root, the only element of a name can give way to nodes that are in order if it is, and that are read as it is
where it stands -/
theorem compile_root_of_replaces {name : Option String} {options : Options} {hole : Hole} {e : Element} {n : String}
    {ns : List Node} (hplain : (contextOver options.helpers []).Plain (hole.fill [.element e]))
    (hplain' : (contextOver options.helpers []).Plain (hole.fill ns)) (hn : e.name = some n)
    (honce : (elementsIn (hole.fill [.element e])).countP (·.name == some n) = 1)
    (haccepts : (∀ m ∈ allNodes [.element e], (Document.surroundings ⟨⟨name, []⟩, options⟩ []).Accepts m) ↔
      ∀ m ∈ allNodes ns, (Document.surroundings ⟨⟨name, []⟩, options⟩ []).Accepts m)
    (hreplaces : (∀ f ∈ elementsIn (e.content.getD []), f.name ≠ some n) →
      (∀ call, Node.superCall call ∉ allNodes (e.content.getD [])) →
      (contextOver options.helpers []).Replaces False (some n) [.element e] ns) :
    ((∃ t, (compile ⟨name, hole.fill [.element e]⟩ none options).result = .ok t) ↔
        ∃ t', (compile ⟨name, hole.fill ns⟩ none options).result = .ok t') ∧
      ∀ t t', (compile ⟨name, hole.fill [.element e]⟩ none options).result = .ok t →
        (compile ⟨name, hole.fill ns⟩ none options).result = .ok t' →
        ∃ text, t.render = .ok text ∧ t'.render = .ok text := by
  let d : Document := ⟨⟨name, hole.fill [.element e]⟩, options⟩
  let d' : Document := ⟨⟨name, hole.fill ns⟩, options⟩
  have hdraft : (∃ t, draft d none = .ok t) ↔ ∃ t', draft d' none = .ok t' :=
    exists_draft_fill_iff hplain hplain' haccepts
  obtain ⟨haround, hinside⟩ := forall_not_of_countP_eq_one (fun _ _ _ => rfl) (by simpa using hn) honce
  refine @compile_root_of_inlined d d' False (some n) rfl rfl hdraft fun hd => ?_
  have hcalls (call : SuperCall) : Node.superCall call ∉ allNodes (e.content.getD []) := by
    intro hmem
    refine superCall_not_mem_of_draft hplain hd call (mem_allNodes_fill hole ?_)
    rw [allNodes_element]
    exact List.mem_cons_of_mem _ (List.mem_append_left _ hmem)
  refine (hreplaces (by simpa using hinside) hcalls).fill hplain hplain' ?_ (by simp) (by simp)
  rintro f hf _ ⟨⟩
  simpa using haround f hf

end BlockTemplates
