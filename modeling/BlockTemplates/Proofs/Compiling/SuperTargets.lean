/-
What super calls call. A super call in content is looked for when it is compiled, and a target that no ancestor defines
is an error. A super call among attributes has a target as well, but is taken for a call of nothing where no ancestor
has attributes for it, whether the target is defined or not.

Main statements: `Reads.attributeFault?_eq_none` (what is known about the attributes of a document that compiles) and
`super_targets`.
-/
import BlockTemplates.Proofs.Compiling.Verdict
import BlockTemplates.Proofs.Reading.Inheritance

namespace BlockTemplates

open Html Markup Render

/-! ## Targets of attributes -/

section

variable {env : Surroundings} {e : Element} {tag : Option String}

/-- an element in order has attributes in order, if they are looked at -/
theorem attributeFault?_of_elementFault? (h : env.elementFault? e tag = none)
    (hlooked : e.isHelper = false ∨ e.name.isSome) : env.attributeFault? e = none := by
  unfold Surroundings.elementFault? at h
  split at h
  · rename_i hh
    rw [Option.or_eq_none_iff] at h
    simpa [hh, hlooked.resolve_left (by simp [hh])] using h.1
  · exact (Option.or_eq_none_iff.1 h).1

/-- a super call among attributes that are in order has a target -/
theorem exists_target_of_attributeFault? (h : env.attributeFault? e = none) {call : SuperCall} {list : List Attribute}
    (he : e.attributes = some ⟨some call, list⟩) : ∃ target, (call.elementName <|> e.name) = some target := by
  unfold Surroundings.attributeFault? at h
  rw [he, Option.bind_some, Option.bind_some] at h
  split at h
  · cases h
  · rename_i htarget
    rwa [Option.isNone_iff_eq_none, ← ne_eq, Option.ne_none_iff_exists'] at htarget

end

/-- where nothing is wrong with a document, nothing is wrong with the attributes of its elements -/
theorem Reads.attributeFault?_eq_none {env : Surroundings} {within : Option String} {tags tags' given : Tags}
    {nodes : List Node} {ps : Parts} (h : Reads env.context within tags nodes tags' ps) {depth : Nat}
    (hv : judge env depth within tags nodes = .ok given) :
    given = tags' ∧ ∀ p ∈ ps.occurrences, env.attributeFault? p.2.element = none := by
  obtain ⟨htags, hfaults⟩ := h.elementFault?_eq_none hv
  refine ⟨htags, ?_⟩
  rintro ⟨name, o⟩ hp
  refine attributeFault?_of_elementFault? (hfaults _ hp) ?_
  cases name with
  | none => exact .inl (h.isHelper_eq_false o hp)
  | some name => exact .inr (by simp [(h.readFrom _ hp).name])

/-! ## Undefined targets -/

theorem definition?_eq_none_of_findDefinition {name : String} {rs : List Reading} (h : findDefinition name rs = none) :
    ∀ r ∈ rs, r.definition? name = none := by
  induction rs with
  | nil => simp
  | cons r rs ih =>
    unfold findDefinition at h
    split at h
    · contradiction
    · rename_i hnone
      exact List.forall_mem_cons.2 ⟨hnone, ih h⟩

/-- a name that no level defines has no attributes -/
theorem inheritedFrom_of_undefined {rs : List Reading} {ls : List Level} (h : Realised rs ls) {name : String}
    (hnone : findBody name ls = none) : inheritedFrom name rs = {} := by
  rcases h.findBody name with ⟨-, hundefined⟩ | ⟨_, _, _, _, _, hsome, -⟩
  · refine inheritedFrom_eq_empty fun r hr o ho => ?_
    exact absurd rfl (Parts.fst_ne_of_lookup (definition?_eq_none_of_findDefinition hundefined r hr) _ ho)
  · rw [hnone] at hsome
    contradiction

section

variable {env : Surroundings} {err : CompileError}

theorem findBody_of_callFault? {within : Option String} {call : SuperCall} (h : env.callFault? within call = some err)
    {target : String} (herr : err = .undefinedSuperTarget target) : findBody target env.ancestors = none := by
  subst herr
  unfold Surroundings.callFault? at h
  split at h
  · cases h
  · split at h
    · cases h
    · split at h
      · rename_i hnone
        cases h
        exact Option.isNone_iff_eq_none.1 hnone
      · cases h

theorem elementFault?_ne {e : Element} {tag : Option String} (h : env.elementFault? e tag = some err)
    (target : String) : err ≠ .undefinedSuperTarget target := by
  rintro rfl
  simpa using elementFault?_eq_some h

end

/-- only a super call in content fails with an undefined target -/
theorem findBody_of_verdict {d : Document} {ancestors : List Level} {target : String}
    (h : d.verdict ancestors = .error (.undefinedSuperTarget target)) : findBody target ancestors = none := by
  refine judge_eq_error (P := fun err => ∀ target, err = .undefinedSuperTarget target → findBody target ancestors = none)
    ?_ ?_ nofun h target rfl
  · intro within call err hfault target herr
    exact findBody_of_callFault? hfault herr
  · intro e tag err hfault target herr
    exact absurd herr (elementFault?_ne hfault target)

/-! ## Super calls -/

/-- **Super calls.** In content, what compiles on top of a template calls only elements that the template or one of its
ancestors defines. A super call among attributes has a target too, but the target is not looked for: where nothing
defines it, the element has the attributes that are written with it and no others. What does not compile fails with the
first thing that is wrong with it, and with an undefined target only where nothing defines the target. -/
theorem super_targets {ds : List Document} {t : Template} (h : Compiled ds (some t)) (d : Document) :
    (∀ t', (compile d.block (some t) d.options).result = .ok t' →
      ∃ r rs, ReadsAll (d :: ds) (r :: rs) ∧ Realised (r :: rs) t'.chain ∧
        (∀ target ∈ r.parts.superTargets, (findBody target t.chain).isSome) ∧
        ∀ p ∈ r.parts.occurrences, ∀ call list, p.2.element.attributes = some ⟨some call, list⟩ →
          ∃ target, (call.elementName <|> p.2.element.name) = some target ∧
            p.2.slots = some ((inheritedFrom target rs).setAll list) ∧
            (findBody target t.chain = none → p.2.slots = some (AttributeSlots.ofList list))) ∧
      ∀ err, (compile d.block (some t) d.options).result = .error err →
        (d.verdict t.chain = .error err ∨ ∃ name, err = .recursiveElement name) ∧
          ∀ target, err = .undefinedSuperTarget target → findBody target t.chain = none := by
  obtain ⟨rs, hrs, hleaf⟩ := compiled_reads h
  change Realised rs t.chain at hleaf
  constructor
  · intro t' hcompile
    obtain ⟨hd, -⟩ := compile_eq_ok.1 hcompile
    obtain ⟨r, hreads, hprefixes, hrealised⟩ := draft_realises hleaf hd
    obtain ⟨prefixes, parts, tags⟩ := r
    cases hprefixes
    obtain ⟨given, hverdict⟩ := verdict_of_draft hd
    have hfaults := hreads
    rw [← hleaf.context d] at hfaults
    obtain ⟨-, hattributes⟩ := hfaults.attributeFault?_eq_none hverdict
    refine ⟨_, rs, .document hrs hreads, hrealised, ?_, ?_⟩
    · obtain ⟨_, _, -, rfl⟩ := draft_eq_ok hd
      cases hrealised with
      | cons hl _ => exact hl.targets
    · intro p hp call list he
      obtain ⟨target, htarget⟩ := exists_target_of_attributeFault? (hattributes p hp) he
      have hslots : p.2.slots = some ((inheritedFrom target rs).setAll list) := by
        rw [(hreads.readFrom p hp).slots, slotsOf_superCall he htarget]
      refine ⟨target, htarget, hslots, fun hnone => ?_⟩
      rw [hslots, inheritedFrom_of_undefined hleaf hnone]
      rfl
  · intro err herr
    rcases compile_eq_error_iff.1 herr with hverdict | ⟨_, name, -, -, rfl⟩
    · refine ⟨.inl hverdict, ?_⟩
      rintro target rfl
      exact findBody_of_verdict hverdict
    · exact ⟨.inr ⟨name, rfl⟩, nofun⟩

/-- an element with the content of another one, which there is not -/
def mistakenContent : Document where
  block := ⟨some "c", [.element ⟨false, none, some [some "m"], none, some [.superCall ⟨some "z"⟩]⟩]⟩

/-- an element with the attributes of another one, which there is not -/
def mistakenAttributes : Document where
  block := ⟨some "c", [.element ⟨false, none, some [some "m"], some ⟨some ⟨some "z"⟩, []⟩, none⟩]⟩

theorem mistakenContent_is_refused :
    ∃ t, Compiled [titled] (some t) ∧
      (compile mistakenContent.block (some t) mistakenContent.options).result = .error (.undefinedSuperTarget "z") ∧
      mistakenContent.verdict t.chain = .error (.undefinedSuperTarget "z") ∧ findBody "z" t.chain = none := by
  obtain ⟨t, ht⟩ : ∃ t, (compile titled.block none titled.options).result = .ok t := ⟨_, rfl⟩
  have hrefused :
      (compile mistakenContent.block (some t) mistakenContent.options).result = .error (.undefinedSuperTarget "z") := by
    cases ht
    rfl
  have hcompiled : Compiled [titled] (some t) := .document _ .none ht
  obtain ⟨-, hfails⟩ := super_targets hcompiled mistakenContent
  obtain ⟨hverdict | ⟨name, hname⟩, hundefined⟩ := hfails _ hrefused
  · exact ⟨t, hcompiled, hrefused, hverdict, hundefined "z" rfl⟩
  · cases hname

/-- among attributes, the same target is not missed: the document compiles, and the element has no attributes -/
theorem mistakenAttributes_is_accepted :
    ∃ t t', Compiled [titled] (some t) ∧ findBody "z" t.chain = none ∧
      (compile mistakenAttributes.block (some t) mistakenAttributes.options).result = .ok t' ∧
      t'.render = .ok "<span class=\"c__m a__m\"></span>" := by
  obtain ⟨t, ht⟩ : ∃ t, (compile titled.block none titled.options).result = .ok t := ⟨_, rfl⟩
  obtain ⟨hundefined, t', ht', hrender⟩ : findBody "z" t.chain = none ∧
      ∃ t', (compile mistakenAttributes.block (some t) mistakenAttributes.options).result = .ok t' ∧
        t'.render = .ok "<span class=\"c__m a__m\"></span>" := by
    cases ht
    exact ⟨rfl, _, rfl, rfl⟩
  exact ⟨t, t', .document _ .none ht, hundefined, ht', hrender⟩

end BlockTemplates
