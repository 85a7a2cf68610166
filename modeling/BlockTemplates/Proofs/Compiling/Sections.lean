/-
Documents without helpers of their own. A document in which no helper is invoked but the one for sections, as its events
tell, compiles as it would if no other helper were registered. Such a document can be read without knowing what helpers
do.

Main statements: `follows_walk` (a walk that invokes no other helper does not depend on the others),
`draft_withSections` and `compiled_withSections` (neither does a document, nor a chain), `invokesOnlySections` (no other
helper is invoked where no other is written).
-/
import BlockTemplates.Proofs.Compiling.Reports
import BlockTemplates.Proofs.Reading.Blank

namespace BlockTemplates

open Markup Render

/-! ## The helper for sections -/

open Classical in
/-- the helper for sections alone, if it is registered under its name -/
noncomputable def Registry.sections (helpers : Registry) : Registry :=
  if helpers.find? "section" = some sectionHelper then .builtins else {}

theorem Registry.find?_sections {helpers : Registry} {name : String} {helper : Helper}
    (h : helpers.sections.find? name = some helper) :
    helper = sectionHelper ∧ helpers.find? name = some sectionHelper := by
  unfold Registry.sections at h
  split at h
  · rename_i hsection
    simp only [Registry.builtins, Registry.find?, List.lookup_cons, List.lookup_nil] at h
    split at h
    · rename_i hname
      obtain rfl := eq_of_beq hname
      exact ⟨(Option.some.inj h).symm, hsection⟩
    · cases h
  · cases h

theorem Registry.find?_sections_self {helpers : Registry} (h : helpers.find? "section" = some sectionHelper) :
    helpers.sections.find? "section" = some sectionHelper := by
  unfold Registry.sections
  rw [if_pos h]
  rfl

theorem Registry.find?_sections_eq_none {helpers : Registry} {name : String} (h : helpers.find? name = none) :
    helpers.sections.find? name = none := by
  rw [Option.eq_none_iff_forall_ne_some]
  intro helper hfind
  rw [(find?_sections hfind).2] at h
  cases h

theorem Registry.blind_sections (helpers : Registry) : helpers.sections.Blind := by
  intro name helper hfind e
  rw [(find?_sections hfind).1]
  exact blind_sectionHelper e

/-- the event is not that of a helper, unless it is the one for sections -/
def Event.Permitted (helpers : Registry) : Event → Prop
  | .expandingHelper name => name = "section" ∧ helpers.find? name = some sectionHelper
  | _ => True

theorem Event.permitted_of_isPlain {helpers : Registry} (event : Event) (h : event.IsPlain) :
    event.Permitted helpers := by
  cases event with
  | expandingHelper name => exact h.elim
  | _ => trivial

/-! ## Walks that report no other helper -/

/-- the walk `w` only adds to what is reported, and where all that is reported satisfies `P`, `w'` comes to the same -/
structure Follows {α : Type} (P : Event → Prop) (w w' : Walk α) : Prop where
  grows : ∀ r, r.events <:+ (outcome w r).2.events
  same : ∀ r, (∀ event ∈ (outcome w r).2.events, P event) → outcome w' r = outcome w r

namespace Follows

variable {α β : Type} {P : Event → Prop}

theorem bind {w w' : Walk α} {f f' : α → Walk β} (hw : Follows P w w') (hf : ∀ a, Follows P (f a) (f' a)) :
    Follows P (w >>= f) (w' >>= f') := by
  constructor
  · intro r
    have hgrows := hw.grows r
    rw [outcome_bind]
    rcases hr : outcome w r with ⟨e | a, r₁⟩
    · rw [hr] at hgrows
      exact hgrows
    · rw [hr] at hgrows
      exact hgrows.trans ((hf a).grows r₁)
  · intro r hP
    have hsame := hw.same r
    rw [outcome_bind] at hP ⊢
    rw [outcome_bind]
    rcases hr : outcome w r with ⟨e | a, r₁⟩
    · rw [hr] at hP hsame
      rw [hsame hP]
    · rw [hr] at hP hsame
      have hfirst : ∀ event ∈ r₁.events, P event := fun event hm => hP event (((hf a).grows r₁).subset hm)
      rw [hsame hfirst]
      exact (hf a).same r₁ hP

end Follows

/-- every walk comes to what it comes to -/
theorem Reports.follows {α : Type} {P Q : Event → Prop} {w : Walk α} (h : Reports Q w) : Follows P w w where
  grows r := by
    obtain ⟨new, hnew, -⟩ := h r
    exact hnew ▸ List.suffix_append new r.events
  same _ _ := rfl

theorem follows_pure {α : Type} {P : Event → Prop} (a : α) : Follows P (Pure.pure a : Walk α) (Pure.pure a) :=
  (Reports.pure (Q := Event.IsPlain) a).follows

theorem follows_throw {α : Type} {P : Event → Prop} (e : CompileError) :
    Follows P (MonadExcept.throw e : Walk α) (MonadExcept.throw e) :=
  (Reports.throw (Q := Event.IsPlain) e).follows

theorem follows_ofExcept {α : Type} {P : Event → Prop} (x : Except CompileError α) :
    Follows P (MonadExcept.ofExcept x : Walk α) (MonadExcept.ofExcept x) :=
  (Reports.ofExcept (Q := Event.IsPlain) x).follows

/-- the surroundings with no helper but the one for sections -/
noncomputable def Surroundings.withSections (env : Surroundings) : Surroundings :=
  { env with helpers := env.helpers.sections }

section

variable {env : Surroundings} {e : Element} {expand expand' : Scope → List Node → Walk Scope}
  {content content' : Scope → Walk Scope}

theorem follows_expansion {tag : Option String} :
    Follows (Event.Permitted env.helpers) (expansion env e tag) (expansion env.withSections e tag) := by
  unfold expansion
  cases tag with
  | none => exact follows_throw _
  | some name =>
    dsimp only [Surroundings.withSections]
    cases hfind : env.helpers.find? name with
    | none =>
      rw [Registry.find?_sections_eq_none hfind]
      exact follows_throw _
    | some helper =>
      refine ⟨fun r => List.suffix_cons _ r.events, fun r hP => ?_⟩
      obtain ⟨rfl, hsection⟩ := hP (.expandingHelper name) List.mem_cons_self
      cases hfind.symm.trans hsection
      rw [Registry.find?_sections_self hsection]

variable (hcontent : ∀ inner, Follows (Event.Permitted env.helpers) (content inner) (content' inner))
  (hexpand : ∀ inner nodes, Follows (Event.Permitted env.helpers) (expand inner nodes) (expand' inner nodes))
include hcontent hexpand

theorem follows_childrenOf (tag : Option String) (inner : Scope) :
    Follows (Event.Permitted env.helpers) (childrenOf env expand e content tag inner)
      (childrenOf env.withSections expand' e content' tag inner) := by
  unfold childrenOf
  split
  · exact .bind follows_expansion fun nodes => hexpand inner nodes
  · exact hcontent inner

theorem follows_compileElement (scope : Scope) :
    Follows (Event.Permitted env.helpers) (compileElement env expand e content scope)
      (compileElement env.withSections expand' e content' scope) := by
  have hchildren := follows_childrenOf (e := e) hcontent hexpand
  rw [compileElement_eq, compileElement_eq]
  refine .bind reports_resolveTag.follows fun tag => ?_
  split
  · exact .bind reports_namedSlots.follows fun slots => .bind reports_namedOps.follows fun render =>
      .bind (hchildren tag _) fun inner => .bind (reports_define _ _).follows fun _ => follows_pure _
  · unfold anonymousElement
    split
    · exact hchildren tag scope
    · exact .bind (follows_ofExcept _) fun slots => .bind (follows_ofExcept _) fun opening =>
        .bind (hchildren tag _) fun inner => follows_pure _

end

/-! ## All nodes -/

theorem follows_compileNodes {env : Surroundings} {expand expand' : Scope → List Node → Walk Scope}
    (hexpand : ∀ inner nodes, Follows (Event.Permitted env.helpers) (expand inner nodes) (expand' inner nodes))
    (nodes : List Node) :
    ∀ scope, Follows (Event.Permitted env.helpers) (compileNodes env expand scope nodes)
      (compileNodes env.withSections expand' scope nodes) := by
  induction nodes using nodes_induction with
  | nil => exact fun _ => follows_pure _
  | text value ns ih => exact fun _ => .bind (follows_pure _) ih
  | comment value multiline ns ih => exact fun _ => .bind (follows_pure _) ih
  | superCall call ns ih => exact fun _ => .bind reports_compileSuperCall.follows ih
  | element e ns ihc ih =>
    intro scope
    simp only [compileNodes, compileNode_element]
    exact .bind (follows_compileElement ihc hexpand scope) ih

/-- a walk that invokes no helper but the one for sections does not depend on the others -/
theorem follows_walk (env : Surroundings) (depth : Nat) (scope : Scope) (nodes : List Node) :
    Follows (Event.Permitted env.helpers) (walk env depth scope nodes) (walk env.withSections depth scope nodes) := by
  induction depth generalizing scope nodes with
  | zero => exact follows_compileNodes (fun _ _ => follows_throw _) nodes scope
  | succ depth ih => exact follows_compileNodes ih nodes scope

/-! ## Sections as they are written -/

/-- every helper element, at any depth, is written as a section -/
inductive HelpersAreSections : List Node → Prop
  | nil : HelpersAreSections []
  | text {value ns} : HelpersAreSections ns → HelpersAreSections (.text value :: ns)
  | comment {value multiline ns} : HelpersAreSections ns → HelpersAreSections (.comment value multiline :: ns)
  | superCall {call ns} : HelpersAreSections ns → HelpersAreSections (.superCall call :: ns)
  | element {e ns} : (e.isHelper = true → e.tagName = some "section") → HelpersAreSections (e.content.getD []) →
    HelpersAreSections ns → HelpersAreSections (.element e :: ns)

theorem resolveTag_of_tagName (env : Surroundings) {e : Element} {tag : String} (h : e.tagName = some tag) :
    ∃ note : Walk Unit, Reports Event.IsPlain note ∧ resolveTag env e = (do note; return some tag) := by
  unfold resolveTag
  rw [h]
  cases e.name with
  | none => exact ⟨return (), .pure _, rfl⟩
  | some name => exact ⟨noteTag name tag, reports_noteTag name tag, rfl⟩

section

variable {env : Surroundings} (hsection : env.helpers.find? "section" = some sectionHelper)

theorem reports_namedElement {e : Element} {name : String} {tag : Option String} {children : Scope → Walk Scope}
    {scope : Scope} (hchildren : ∀ inner, Reports (Event.Permitted env.helpers) (children inner)) :
    Reports (Event.Permitted env.helpers) (namedElement env e name tag children scope) :=
  .bind (reports_namedSlots.mono Event.permitted_of_isPlain) fun _ =>
    .bind (reports_namedOps.mono Event.permitted_of_isPlain) fun _ => .bind (hchildren _) fun _ =>
      .bind ((reports_define _ _).mono Event.permitted_of_isPlain) fun _ => .pure _

theorem reports_anonymousElement {e : Element} {tag : Option String} {children : Scope → Walk Scope} {scope : Scope}
    (hchildren : ∀ inner, Reports (Event.Permitted env.helpers) (children inner)) :
    Reports (Event.Permitted env.helpers) (anonymousElement env e tag children scope) := by
  unfold anonymousElement
  split
  · exact hchildren scope
  · exact .bind (.ofExcept _) fun _ => .bind (.ofExcept _) fun _ => .bind (hchildren _) fun _ => .pure _

include hsection

theorem expansion_section (e : Element) :
    expansion env e (some "section") = (do report (.expandingHelper "section"); return e.content.getD []) := by
  unfold expansion
  dsimp only
  rw [hsection]
  rfl

theorem reports_childrenOf {expand : Scope → List Node → Walk Scope} {e : Element} {content : Scope → Walk Scope}
    {tag : Option String} (htag : e.isHelper = true → tag = some "section")
    (hcontent : ∀ inner, Reports (Event.Permitted env.helpers) (content inner))
    (hexpand : ∀ inner, Reports (Event.Permitted env.helpers) (expand inner (e.content.getD []))) (inner : Scope) :
    Reports (Event.Permitted env.helpers) (childrenOf env expand e content tag inner) := by
  unfold childrenOf
  split
  · rename_i hh
    rw [htag hh, expansion_section hsection, bind_assoc]
    refine .bind (.report ⟨rfl, hsection⟩) fun _ => ?_
    rw [pure_bind]
    exact hexpand inner
  · exact hcontent inner

theorem reports_compileElement {expand : Scope → List Node → Walk Scope} {e : Element} {content : Scope → Walk Scope}
    (he : e.isHelper = true → e.tagName = some "section")
    (hcontent : ∀ inner, Reports (Event.Permitted env.helpers) (content inner))
    (hexpand : ∀ inner, Reports (Event.Permitted env.helpers) (expand inner (e.content.getD []))) (scope : Scope) :
    Reports (Event.Permitted env.helpers) (compileElement env expand e content scope) := by
  rw [compileElement_eq]
  cases hh : e.isHelper with
  | true =>
    obtain ⟨note, hnote, htag⟩ := resolveTag_of_tagName env (he hh)
    have hchildren := reports_childrenOf hsection (fun _ => rfl) hcontent hexpand
    rw [htag, bind_assoc]
    refine .bind (hnote.mono Event.permitted_of_isPlain) fun _ => ?_
    rw [pure_bind]
    split
    · exact reports_namedElement hchildren
    · exact reports_anonymousElement hchildren
  | false =>
    refine .bind (reports_resolveTag.mono Event.permitted_of_isPlain) fun tag => ?_
    have hnotHelper : e.isHelper = true → tag = some "section" := by simp [hh]
    have hchildren := reports_childrenOf hsection hnotHelper hcontent hexpand
    split
    · exact reports_namedElement hchildren
    · exact reports_anonymousElement hchildren

theorem reports_compileNodes {expand : Scope → List Node → Walk Scope} {nodes : List Node}
    (hexpand : ∀ inner nodes, HelpersAreSections nodes → Reports (Event.Permitted env.helpers) (expand inner nodes))
    (h : HelpersAreSections nodes) :
    ∀ scope, Reports (Event.Permitted env.helpers) (compileNodes env expand scope nodes) := by
  induction h with
  | nil => exact fun _ => .pure _
  | text _ ih => exact fun _ => .bind (.pure _) ih
  | comment _ ih => exact fun _ => .bind (.pure _) ih
  | superCall _ ih => exact fun _ => .bind (reports_compileSuperCall.mono Event.permitted_of_isPlain) ih
  | element he hcontent _ ihc ih =>
    intro scope
    simp only [compileNodes, compileNode_element]
    exact .bind (reports_compileElement hsection he ihc (fun inner => hexpand inner _ hcontent) scope) ih

/-- where all helper elements are written as sections, no helper is invoked but the one for sections -/
theorem reports_walk (depth : Nat) (scope : Scope) {nodes : List Node} (h : HelpersAreSections nodes) :
    Reports (Event.Permitted env.helpers) (walk env depth scope nodes) := by
  induction depth generalizing scope nodes with
  | zero => exact reports_compileNodes hsection (fun _ _ _ => .throw _) h scope
  | succ depth ih => exact reports_compileNodes hsection (fun inner _ hnodes => ih inner hnodes) h scope

end

/-! ## Documents -/

/-- the document where no helper is registered but the one for sections -/
noncomputable def Document.withSections (d : Document) : Document where
  block := d.block
  options := { d.options with helpers := d.options.helpers.sections }

/-- on top of its parent, the document invokes no helper but the one for sections -/
def Document.InvokesOnlySections (d : Document) (parent : Option Template) : Prop :=
  ∀ name, Event.expandingHelper name ∈ (compile d.block parent d.options).events →
    name = "section" ∧ d.options.helpers.find? name = some sectionHelper

theorem expandingHelper_mem_events {d : Document} {parent : Option Template} {name : String} :
    .expandingHelper name ∈ (compile d.block parent d.options).events ↔
      .expandingHelper name ∈ (outcome (d.walk (levelsOf parent)) (d.start (levelsOf parent))).2.events := by
  unfold compile
  dsimp only
  split
  · rename_i err record hrun
    have houtcome : outcome (d.walk (levelsOf parent)) (d.start (levelsOf parent)) = (.error err, record) := hrun
    rw [houtcome]
    exact List.mem_reverse
  · rename_i top record hrun
    have houtcome : outcome (d.walk (levelsOf parent)) (d.start (levelsOf parent)) = (.ok top, record) := hrun
    rw [houtcome, List.mem_append, List.mem_reverse, or_iff_left]
    split
    · simp
    · simp

/-- a document whose helper elements are all written as sections invokes no other helper -/
theorem invokesOnlySections {d : Document} (hsection : d.options.helpers.find? "section" = some sectionHelper)
    (h : HelpersAreSections d.block.content) (parent : Option Template) : d.InvokesOnlySections parent := by
  intro name hname
  rw [expandingHelper_mem_events] at hname
  have hfound : (d.surroundings (levelsOf parent)).helpers.find? "section" = some sectionHelper := hsection
  obtain ⟨new, hnew, hpermitted⟩ := reports_walk hfound
    (nodesHeight d.block.content + d.options.expansionLimit) {} h (d.start (levelsOf parent))
  change (outcome (d.walk (levelsOf parent)) (d.start (levelsOf parent))).2.events = _ at hnew
  rw [hnew] at hname
  rcases List.mem_append.1 hname with hname | hname
  · exact hpermitted _ hname
  · simp [Document.start] at hname

/-- other helpers that are not invoked make no difference -/
theorem draft_withSections {d : Document} {parent : Option Template} (h : d.InvokesOnlySections parent) :
    draft d.withSections parent = draft d parent := by
  have hpermitted : ∀ event ∈ (outcome (d.walk (levelsOf parent)) (d.start (levelsOf parent))).2.events,
      event.Permitted d.options.helpers := by
    intro event hm
    cases event with
    | expandingHelper name => exact h name (expandingHelper_mem_events.2 hm)
    | _ => trivial
  have hsame : outcome (d.withSections.walk (levelsOf parent)) (d.withSections.start (levelsOf parent)) =
      outcome (d.walk (levelsOf parent)) (d.start (levelsOf parent)) :=
    (follows_walk (d.surroundings (levelsOf parent)) _ {} d.block.content).same _ hpermitted
  unfold outcome at hsame
  unfold draft
  dsimp only
  rw [hsame]
  rfl

theorem compile_withSections {d : Document} {parent : Option Template} (h : d.InvokesOnlySections parent) :
    (compile d.withSections.block parent d.withSections.options).result = (compile d.block parent d.options).result := by
  rw [compile_result, compile_result, draft_withSections h]

/-- no document invokes a helper but the one for sections, on top of the template that those below it compile to -/
def OnlySections : List Document → Prop
  | [] => True
  | d :: ds => (∀ parent, Compiled ds parent → d.InvokesOnlySections parent) ∧ OnlySections ds

theorem onlySections {ds : List Document}
    (h : ∀ d ∈ ds, d.options.helpers.find? "section" = some sectionHelper ∧ HelpersAreSections d.block.content) :
    OnlySections ds := by
  induction ds with
  | nil => trivial
  | cons d ds ih =>
    rw [List.forall_mem_cons] at h
    exact ⟨fun parent _ => invokesOnlySections h.1.1 h.1.2 parent, ih h.2⟩

/-- a chain compiles to the same template if no helper is registered but the one for sections -/
theorem compiled_withSections {ds : List Document} {parent : Option Template} (h : OnlySections ds) :
    Compiled (ds.map Document.withSections) parent ↔ Compiled ds parent := by
  induction ds generalizing parent with
  | nil => rfl
  | cons d ds ih =>
    obtain ⟨hd, hds⟩ := h
    constructor
    · intro hcompiled
      cases hcompiled with
      | document _ hbelow hc =>
        rw [ih hds] at hbelow
        rw [compile_withSections (hd _ hbelow)] at hc
        exact .document d hbelow hc
    · intro hcompiled
      cases hcompiled with
      | document _ hbelow hc =>
        rw [← compile_withSections (hd _ hbelow)] at hc
        exact .document d.withSections ((ih hds).2 hbelow) hc

end BlockTemplates
