/-
Private names in a root. A private name gives no class token, and where only one element of a root has it, only that
element is found under it. Then the element is compiled and rendered alike with the name and without: the tag, the
attributes, the content and the closing tag are written the same, in one place or the other.

Main statements: `replaces_unnamed` and `private_name_makes_no_difference`.
-/
import BlockTemplates.Proofs.Rendering.InPlace

namespace BlockTemplates

open Html Markup Render

/-! ## An element without its name -/

/-- the element with null for its first name -/
def Markup.Element.unnamed (e : Element) : Element := { e with names := e.names.map fun names => none :: names.tail }

section

variable {e : Element} {n : String}

theorem name_unnamed (e : Element) : e.unnamed.name = none := by
  unfold Element.name Element.unnamed
  cases e.names with
  | none => rfl
  | some names => rfl

theorem names_of_name (hn : e.name = some n) : ∃ others, e.names = some (some n :: others) := by
  unfold Element.name at hn
  split at hn
  · rename_i name others hnames
    cases hn
    exact ⟨others, hnames⟩
  · contradiction

/-- a private name gives no class token, so that none is lost with it -/
theorem classNames_unnamed (hn : e.name = some n) (hprivate : isPrivateName n = true) :
    e.unnamed.classNames = e.classNames := by
  obtain ⟨others, hnames⟩ := names_of_name hn
  simp [Element.classNames, Element.allNames, Element.unnamed, hnames, hprivate]

end

/-! ## Roots -/

section

variable {helpers : Registry} {e : Element} {n : String}

/-- a root inherits no attributes, under whatever name -/
theorem slotsOf_unnamed (helpers : Registry) (e : Element) :
    (contextOver helpers []).slotsOf e.unnamed = (contextOver helpers []).slotsOf e := by
  have hnone (target : Option String) : target.bind (contextOver helpers []).slots? = none := by
    cases target with
    | none => rfl
    | some name => rfl
  unfold Context.slotsOf Element.unnamed
  simp only [hnone]

/-- without its name, an element is read in a root as the same element where it stands -/
theorem replaces_unnamed (exact : Prop) (hn : e.name = some n) (hprivate : isPrivateName n = true)
    (hhelpers : ∀ f ∈ elementsIn [.element e], f.isHelper = false)
    (hothers : ∀ f ∈ elementsIn (e.content.getD []), f.name ≠ some n)
    (hcalls : ∀ call, Node.superCall call ∉ allNodes (e.content.getD [])) :
    (contextOver helpers []).Replaces exact (some n) [.element e] [.element e.unnamed] := by
  intro within tags tags₁ ps hfree hreads
  have hh : e.isHelper = false := hhelpers e (by simp)
  have he : ∀ tags, (contextOver helpers []).inner e.unnamed ((contextOver helpers []).tagOf tags e.unnamed) =
      some (e.unnamed.content.getD []) := by
    simp [Context.inner, Element.unnamed, hh]
  obtain ⟨children, tags₁', rfl, hc, hagree, hself⟩ :=
    hreads.content_of_named hn (plain_of_no_helpers hhelpers) hothers hcalls
  have htag : (contextOver helpers []).tagOf tags e.unnamed = (contextOver helpers []).tagOf tags e := by
    rw [Context.tagOf_eq, Context.tagOf_eq, name_unnamed, hn, Option.bind_none, Option.bind_some, hfree n rfl]
    rfl
  let o := (contextOver helpers []).occurrence tags e
  let o' := (contextOver helpers []).occurrence tags e.unnamed
  have ho : o.Resembles exact o' :=
    ⟨rfl, classNames_unnamed hn hprivate, htag, slotsOf_unnamed helpers e, rfl, fun _ _ _ => rfl⟩
  have hplaced : o'.placed children .done = .anonymous o' children .done := placed_of_tags (name_unnamed e) hh
  have hreads' : Reads (contextOver helpers []) within tags [.element e.unnamed] tags₁' (o'.placed children .done) := by
    refine (reads_element_iff he).2 ⟨tags₁', children, .done, ?_, .done, rfl⟩
    rw [name_unnamed, Tags.after_of_anonymous (name_unnamed e)]
    exact hc
  refine ⟨some (n, ⟨o, children⟩), tags₁', _, rfl, ?_, hreads', hagree, ?_⟩
  · rintro _ ⟨⟩
    simp [Parts.definitions, o]
  · rw [hplaced]
    exact .unnamed rfl hh ho (hself _ rfl) .done

end

/-! ## Whole documents -/

/-- nothing is wrong with an element of a root without its name that is not wrong with it, and the other way round -/
theorem accepts_unnamed {env : Surroundings} (henv : env.ancestors = []) {e : Element} {n : String}
    (hn : e.name = some n) (hprivate : isPrivateName n = true) (hh : e.isHelper = false) :
    env.Accepts (.element e.unnamed) ↔ env.Accepts (.element e) := by
  have hattributes : env.attributeFault? e.unnamed = none ↔ env.attributeFault? e = none := by
    rw [attributeFault?_root_iff henv, attributeFault?_root_iff henv]
    rfl
  have hclasses : env.classFault? e.unnamed = env.classFault? e := by
    unfold Surroundings.classFault?
    rw [classNames_unnamed hn hprivate]
  have hh' : e.unnamed.isHelper = false := hh
  simp only [Surroundings.Accepts, Surroundings.elementFault?, hh, hh', Bool.false_eq_true, if_false, hclasses,
    Option.or_eq_none_iff, hattributes]

/-- **A private name makes no difference.** In a root without helper elements, compiled with any options, let an element,
at any depth, have a private name that no other element has. Without that name, the element keeping its other names, its
tag, its attributes and its content, the document compiles exactly if it does with it, and is rendered to the same
markup. -/
theorem private_name_makes_no_difference {name : Option String} {options : Options} {hole : Hole} {e : Element}
    {n : String} (hhelpers : ∀ f ∈ elementsIn (hole.fill [.element e]), f.isHelper = false) (hn : e.name = some n)
    (hprivate : isPrivateName n = true)
    (honce : (elementsIn (hole.fill [.element e])).countP (·.name == some n) = 1) :
    ((∃ t, (compile ⟨name, hole.fill [.element e]⟩ none options).result = .ok t) ↔
        ∃ t', (compile ⟨name, hole.fill [.element e.unnamed]⟩ none options).result = .ok t') ∧
      ∀ t t', (compile ⟨name, hole.fill [.element e]⟩ none options).result = .ok t →
        (compile ⟨name, hole.fill [.element e.unnamed]⟩ none options).result = .ok t' →
        ∃ text, t.render = .ok text ∧ t'.render = .ok text := by
  have hhelpers' : ∀ f ∈ elementsIn (hole.fill [.element e.unnamed]), f.isHelper = false := by
    refine forall_elementsIn_fill (fun _ _ _ h => h) (fun h => ?_) hhelpers
    simpa [Element.unnamed] using h
  have helement : ∀ f ∈ elementsIn [.element e], f.isHelper = false := fun f hf =>
    hhelpers f (mem_elementsIn.2 (mem_allNodes_fill hole (mem_elementsIn.1 hf)))
  refine compile_root_of_replaces (plain_of_no_helpers hhelpers) (plain_of_no_helpers hhelpers') hn honce ?_ ?_
  · simp only [allNodes_element, List.forall_mem_cons]
    rw [accepts_unnamed rfl hn hprivate (helement e (by simp))]
    rfl
  · exact replaces_unnamed False hn hprivate helement

/-- an element with a private name and another one, inside an element with a name -/
def marked : Element where
  isHelper := false
  tagName := some "em"
  names := some [some "_mark", some "mark"]
  attributes := some ⟨none, [⟨"title", some "t"⟩]⟩
  content := some [.text "b"]

/-- where it stands -/
def markedHole : Hole :=
  .inside [.text "1"] ⟨false, some "p", some [some "line"], none, none⟩ (.among [.text "a"] []) [.text "2"]

theorem marked_unnamed : ∃ t t',
    (compile ⟨some "b", markedHole.fill [.element marked]⟩ none {}).result = .ok t ∧
      (compile ⟨some "b", markedHole.fill [.element marked.unnamed]⟩ none {}).result = .ok t' ∧
      t.render = .ok "1<p class=\"b__line\">a<em class=\"b__mark\" title=\"t\">b</em></p>2" ∧ t'.render = t.render := by
  have hhelpers : ∀ f ∈ elementsIn (markedHole.fill [.element marked]), f.isHelper = false := by
    simp [markedHole, marked, Hole.fill]
  have honce : (elementsIn (markedHole.fill [.element marked])).countP (·.name == some "_mark") = 1 := by
    simp [markedHole, marked, Hole.fill, Element.name]
  obtain ⟨hcompiles, hrenders⟩ :=
    @private_name_makes_no_difference (some "b") {} markedHole marked "_mark" hhelpers rfl rfl honce
  obtain ⟨t, ht, hrender⟩ : ∃ t, (compile ⟨some "b", markedHole.fill [.element marked]⟩ none {}).result = .ok t ∧
      t.render = .ok "1<p class=\"b__line\">a<em class=\"b__mark\" title=\"t\">b</em></p>2" := ⟨_, rfl, rfl⟩
  obtain ⟨t', ht'⟩ := hcompiles.1 ⟨t, ht⟩
  obtain ⟨text, htext, htext'⟩ := hrenders t t' ht ht'
  exact ⟨t, t', ht, ht', hrender, htext'.trans htext.symm⟩

end BlockTemplates
