/-
Which documents without helpers compile. The rules are about the sites of a document, which are its elements and the
super calls in its content, in the order in which they begin. What breaks a rule fails with the error of the first site
that does. What obeys them all compiles, unless an element that rendering reaches contains itself.

Main statements: `obeys_iff` (the rules are obeyed where no site breaks one), `violates_iff` (what is wrong with a
site), `judge_eq_verdictOf` (the verdict is on the first site with which something is wrong) and `compile_rules`.
-/
import BlockTemplates.Proofs.Compiling.Verdict
import BlockTemplates.Proofs.Rendering.Recursion

namespace BlockTemplates

open Html Markup Render

/-! ## Sites -/

/-- where a document can break a rule -/
inductive Site where
  | element (e : Element)
  /-- a super call in content, inside the named element `within` -/
  | superCall (within : Option String) (call : SuperCall)

mutual

def nodeSites (within : Option String) : Node → List Site
  | .element ⟨helper, tag, names, attributes, none⟩ => [.element ⟨helper, tag, names, attributes, none⟩]
  | .element ⟨helper, tag, names, attributes, some content⟩ =>
    let e : Element := ⟨helper, tag, names, attributes, some content⟩
    .element e :: sitesWithin (e.name <|> within) content
  | .text _ | .comment _ _ => []
  | .superCall call => [.superCall within call]

/-- the sites of content inside the named element `within`, an element before what it contains -/
def sitesWithin (within : Option String) : List Node → List Site
  | [] => []
  | n :: ns => nodeSites within n ++ sitesWithin within ns

end

theorem sitesWithin_element (within : Option String) (e : Element) (ns : List Node) :
    sitesWithin within (.element e :: ns) =
      .element e :: (sitesWithin (e.name <|> within) (e.content.getD []) ++ sitesWithin within ns) := by
  obtain ⟨helper, tag, names, attributes, content⟩ := e
  cases content with
  | none => simp only [sitesWithin, nodeSites, Option.getD_none, List.nil_append, List.cons_append]
  | some content => simp only [sitesWithin, nodeSites, Option.getD_some, List.cons_append]

/-- the sites of a document -/
def Document.sites (d : Document) : List Site := sitesWithin none d.block.content

/-- no element of the document stands for what a helper returns -/
def Document.WithoutHelpers (d : Document) : Prop := ∀ e, .element e ∈ d.sites → e.isHelper = false

/-! ## Rules -/

/-- how a site breaks a rule. A super call lacks a target before it lacks a parent, and a parent before its target is
undefined; an element has the call among its attributes looked at before its names. -/
inductive Violates (d : Document) (parent : Option Template) : Site → CompileError → Prop
  | outsideElement {within : Option String} {call : SuperCall} :
    (call.elementName <|> within) = none → Violates d parent (.superCall within call) .superOutsideElement
  | callWithoutParent {within : Option String} {call : SuperCall} {target : String} :
    (call.elementName <|> within) = some target → parent = none →
      Violates d parent (.superCall within call) (.superWithoutParent .content)
  | undefinedTarget {within : Option String} {call : SuperCall} {target : String} {p : Template} :
    (call.elementName <|> within) = some target → parent = some p → (¬ ∃ l ∈ p.chain, l.defines target) →
      Violates d parent (.superCall within call) (.undefinedSuperTarget target)
  | anonymousAttributes {e : Element} {call : SuperCall} :
    e.attributes.bind (·.superCall) = some call → (call.elementName <|> e.name) = none →
      Violates d parent (.element e) .anonymousAttributeSuper
  | attributesWithoutParent {e : Element} {call : SuperCall} {target : String} :
    e.attributes.bind (·.superCall) = some call → (call.elementName <|> e.name) = some target → parent = none →
      Violates d parent (.element e) (.superWithoutParent .attributes)
  /-- where there is no parent, an element whose super call is in order has none -/
  | missingBlockName {e : Element} {name : String} :
    e.attributes.bind (·.superCall) = none → parent = none → d.blockNames = [] → name ∈ e.allNames →
      isPrivateName name = false → Violates d parent (.element e) .missingBlockName

/-- what a document without helpers has to obey -/
structure Document.Obeys (d : Document) (parent : Option Template) : Prop where
  /-- a super call in content has a target, and there is a parent whose chain defines it -/
  calls : ∀ within call, .superCall within call ∈ d.sites →
    ∃ target, (call.elementName <|> within) = some target ∧ ∃ p, parent = some p ∧ ∃ l ∈ p.chain, l.defines target
  /-- a super call among attributes says whose, or stands on an element with an identity, and there is a parent -/
  attributeCalls : ∀ e call, .element e ∈ d.sites → e.attributes.bind (·.superCall) = some call →
    (call.elementName.isSome ∨ e.name.isSome) ∧ parent.isSome
  /-- without a parent and a block name, all names are private -/
  names : parent = none → d.blockNames = [] → ∀ e, .element e ∈ d.sites → ∀ name ∈ e.allNames, isPrivateName name = true

section

variable {d : Document} {parent : Option Template}

/-- without a parent, a super call among attributes is wrong in one way or another -/
theorem exists_violates_of_no_parent (d : Document) {e : Element} {call : SuperCall}
    (hcall : e.attributes.bind (·.superCall) = some call) (hparent : parent = none) :
    ∃ err, Violates d parent (.element e) err := by
  cases htarget : call.elementName <|> e.name with
  | none => exact ⟨_, .anonymousAttributes hcall htarget⟩
  | some target => exact ⟨_, .attributesWithoutParent hcall htarget hparent⟩

/-- a document obeys the rules exactly if none of its sites breaks one -/
theorem obeys_iff : d.Obeys parent ↔ ∀ site ∈ d.sites, ∀ err, ¬ Violates d parent site err := by
  constructor
  · intro h site hsite err hviolates
    cases hviolates with
    | outsideElement hnone =>
      obtain ⟨target, htarget, -⟩ := h.calls _ _ hsite
      simp [hnone] at htarget
    | callWithoutParent _ hparent =>
      obtain ⟨-, -, p, hp, -⟩ := h.calls _ _ hsite
      simp [hparent] at hp
    | undefinedTarget htarget hparent hundefined =>
      obtain ⟨target', htarget', p', hp', hdefined⟩ := h.calls _ _ hsite
      cases htarget.symm.trans htarget'
      cases hparent.symm.trans hp'
      exact hundefined hdefined
    | anonymousAttributes hcall hnone =>
      obtain ⟨hnamed, -⟩ := h.attributeCalls _ _ hsite hcall
      obtain ⟨htarget, hname⟩ := by simpa using hnone
      simp [htarget, hname] at hnamed
    | attributesWithoutParent hcall _ hparent =>
      obtain ⟨-, hsome⟩ := h.attributeCalls _ _ hsite hcall
      simp [hparent] at hsome
    | missingBlockName _ hparent hnames hname hpublic =>
      have hprivate := h.names hparent hnames _ hsite _ hname
      simp [hpublic] at hprivate
  · intro h
    refine ⟨?_, ?_, ?_⟩
    · intro within call hsite
      cases htarget : call.elementName <|> within with
      | none => exact absurd (.outsideElement htarget) (h _ hsite _)
      | some target =>
        cases hparent : parent with
        | none => exact absurd (.callWithoutParent htarget hparent) (h _ hsite _)
        | some p =>
          refine ⟨target, rfl, p, rfl, ?_⟩
          by_cases hdefined : ∃ l ∈ p.chain, l.defines target
          · exact hdefined
          · exact absurd (.undefinedTarget htarget hparent hdefined) (h _ hsite _)
    · intro e call hsite hcall
      constructor
      · cases hexplicit : call.elementName with
        | some name => exact .inl rfl
        | none =>
          cases hname : e.name with
          | some name => exact .inr rfl
          | none => exact absurd (.anonymousAttributes hcall (by simp [hexplicit, hname])) (h _ hsite _)
      · cases hparent : parent with
        | none =>
          obtain ⟨err, hviolates⟩ := exists_violates_of_no_parent d hcall hparent
          exact absurd hviolates (h _ hsite _)
        | some p => rfl
    · intro hparent hnames e hsite name hname
      cases hprivate : isPrivateName name with
      | true => rfl
      | false =>
        cases hcall : e.attributes.bind (·.superCall) with
        | none => exact absurd (.missingBlockName hcall hparent hnames hname hprivate) (h _ hsite _)
        | some call =>
          obtain ⟨err, hviolates⟩ := exists_violates_of_no_parent d hcall hparent
          exact absurd hviolates (h _ hsite _)

end

/-! ## What is wrong with a site -/

/-- what is wrong with a site of a document without helpers -/
def Site.fault? (env : Surroundings) : Site → Option CompileError
  | .element e => (env.attributeFault? e).or (env.classFault? e)
  | .superCall within call => env.callFault? within call

/-- class tokens can be written unless a root has no block name -/
theorem Document.hasPrefixes_eq_false_iff (d : Document) (parent : Option Template) :
    (d.surroundings (levelsOf parent)).hasPrefixes = false ↔ parent = none ∧ d.blockNames = [] := by
  cases parent with
  | none => simp [Document.surroundings, levelsOf, ownPrefixes, leafPrefixes]
  | some p =>
    by_cases hnames : d.blockNames = []
    · simp [Document.surroundings, levelsOf, ownPrefixes, Template.chain, hnames]
    · simp [Document.surroundings, levelsOf, ownPrefixes, Template.chain, hnames]

section

variable {d : Document} {parent : Option Template} {err : CompileError}

theorem violates_superCall_iff {within : Option String} {call : SuperCall} :
    Violates d parent (.superCall within call) err ↔
      (d.surroundings (levelsOf parent)).callFault? within call = some err := by
  have hroot : (d.surroundings (levelsOf parent)).ancestors.isEmpty = parent.isNone := levelsOf_isEmpty parent
  unfold Surroundings.callFault?
  rw [hroot]
  constructor
  · intro h
    cases h with
    | outsideElement hnone => rw [hnone]
    | callWithoutParent htarget hparent => simp [htarget, hparent]
    | @undefinedTarget _ _ target p htarget hparent hundefined =>
      have hnone : findBody target p.chain = none := by
        rwa [← Option.not_isSome_iff_eq_none, findBody_isSome_iff]
      simp [htarget, hparent, Document.surroundings, levelsOf, hnone]
  · intro h
    split at h
    · rename_i hnone
      cases h
      exact .outsideElement hnone
    · rename_i target htarget
      cases parent with
      | none =>
        cases h
        exact .callWithoutParent htarget rfl
      | some p =>
        simp only [Option.isNone_some, Bool.false_eq_true, if_false] at h
        split at h
        · rename_i hnone
          cases h
          refine .undefinedTarget htarget rfl ?_
          rwa [← findBody_isSome_iff, Option.not_isSome_iff_eq_none, ← Option.isNone_iff_eq_none]
        · contradiction

theorem attributeFault?_eq_some_iff {e : Element} :
    (d.surroundings (levelsOf parent)).attributeFault? e = some err ↔
      Violates d parent (.element e) err ∧ (e.attributes.bind (·.superCall)).isSome := by
  have hroot : (d.surroundings (levelsOf parent)).ancestors.isEmpty = parent.isNone := levelsOf_isEmpty parent
  unfold Surroundings.attributeFault?
  rw [hroot]
  constructor
  · intro h
    obtain ⟨call, hcall, h⟩ := Option.bind_eq_some_iff.1 h
    refine ⟨?_, by rw [hcall]; rfl⟩
    cases htarget : call.elementName <|> e.name with
    | none =>
      rw [htarget] at h
      cases h
      exact .anonymousAttributes hcall htarget
    | some target =>
      rw [htarget] at h
      cases parent with
      | none =>
        cases h
        exact .attributesWithoutParent hcall htarget rfl
      | some p => cases h
  · rintro ⟨h, hsome⟩
    cases h with
    | anonymousAttributes hcall hnone => rw [hcall, Option.bind_some, hnone, Option.isNone_none, if_pos rfl]
    | attributesWithoutParent hcall htarget hparent =>
      rw [hcall, Option.bind_some, htarget, hparent]
      rfl
    | missingBlockName hnone => simp [hnone] at hsome

theorem classFault?_eq_some_iff {e : Element} :
    (d.surroundings (levelsOf parent)).classFault? e = some err ↔
      parent = none ∧ d.blockNames = [] ∧ (∃ name ∈ e.allNames, isPrivateName name = false) ∧
        err = .missingBlockName := by
  have hclass : e.classNames ≠ [] ↔ ∃ name ∈ e.allNames, isPrivateName name = false := by
    simp [Element.classNames, List.filter_eq_nil_iff]
  have hprefixes := d.hasPrefixes_eq_false_iff parent
  unfold Surroundings.classFault?
  simp only [Bool.not_eq_true, hclass, hprefixes]
  split
  · rename_i h
    obtain ⟨hpublic, hparent, hnames⟩ := h
    rw [Option.some.injEq, eq_comm]
    exact ⟨fun herr => ⟨hparent, hnames, hpublic, herr⟩, fun h => h.2.2.2⟩
  · rename_i h
    simp only [reduceCtorEq, false_iff]
    rintro ⟨hparent, hnames, hpublic, -⟩
    exact h ⟨hpublic, hparent, hnames⟩

/-- a site breaks a rule exactly if something is wrong with it -/
theorem violates_iff {site : Site} :
    Violates d parent site err ↔ site.fault? (d.surroundings (levelsOf parent)) = some err := by
  cases site with
  | superCall within call => exact violates_superCall_iff
  | element e =>
    rw [Site.fault?, Option.or_eq_some_iff, attributeFault?_eq_some_iff, classFault?_eq_some_iff]
    cases hcall : e.attributes.bind (·.superCall) with
    | some call =>
      have hfault : (d.surroundings (levelsOf parent)).attributeFault? e = none → parent ≠ none := by
        intro hnone hparent
        obtain ⟨err', hviolates⟩ := exists_violates_of_no_parent d hcall hparent
        have hsome := attributeFault?_eq_some_iff.2 ⟨hviolates, by rw [hcall]; rfl⟩
        rw [hnone] at hsome
        contradiction
      constructor
      · exact fun h => .inl ⟨h, rfl⟩
      · rintro (⟨h, -⟩ | ⟨hnone, hparent, -⟩)
        · exact h
        · exact absurd hparent (hfault hnone)
    | none =>
      have hfault : (d.surroundings (levelsOf parent)).attributeFault? e = none := by
        simp [Surroundings.attributeFault?, hcall]
      simp only [Option.isSome_none, Bool.false_eq_true, and_false, false_or, hfault, true_and]
      constructor
      · intro h
        cases h with
        | anonymousAttributes hsome => simp [hcall] at hsome
        | attributesWithoutParent hsome => simp [hcall] at hsome
        | missingBlockName _ hparent hnames hname hpublic => exact ⟨hparent, hnames, ⟨_, hname, hpublic⟩, rfl⟩
      · rintro ⟨hparent, hnames, ⟨name, hname, hpublic⟩, rfl⟩
        exact .missingBlockName hcall hparent hnames hname hpublic

theorem obeys_iff_findSome? :
    d.Obeys parent ↔ d.sites.findSome? (Site.fault? (d.surroundings (levelsOf parent))) = none := by
  rw [obeys_iff, List.findSome?_eq_none_iff]
  simp only [violates_iff, ← Option.eq_none_iff_forall_ne_some]

end

/-! ## Verdicts site by site -/

/-- of two verdicts in a row, the first fault counts -/
theorem verdictOf_bind {fault fault' : Option CompileError} {tags : Tags} {k : Tags → Verdict}
    (hk : ∀ given, ∃ final, k given = verdictOf fault' final) :
    ∃ final, (verdictOf fault tags >>= k) = verdictOf (fault.or fault') final := by
  cases fault with
  | some err => exact ⟨tags, rfl⟩
  | none => exact hk tags

theorem elementFault?_of_markup {env : Surroundings} {e : Element} (he : e.isHelper = false) (tag : Option String) :
    env.elementFault? e tag = (Site.element e).fault? env := by
  simp [Surroundings.elementFault?, Site.fault?, he]

/-- the verdict on content without helpers is on the first site with which something is wrong -/
theorem judge_eq_verdictOf (env : Surroundings) (depth : Nat) (nodes : List Node) :
    ∀ within tags, (∀ e, .element e ∈ sitesWithin within nodes → e.isHelper = false) →
      ∃ given, judge env depth within tags nodes =
        verdictOf ((sitesWithin within nodes).findSome? (Site.fault? env)) given := by
  induction nodes using nodes_induction with
  | nil =>
    intro within tags _
    exact ⟨tags, judge_nil env depth within tags⟩
  | text value ns ih =>
    intro within tags hplain
    rw [judge_text]
    exact ih within tags hplain
  | comment value multiline ns ih =>
    intro within tags hplain
    rw [judge_comment]
    exact ih within tags hplain
  | superCall call ns ih =>
    intro within tags hplain
    rw [judge_superCall, sitesWithin, nodeSites, List.singleton_append, findSome?_cons_or]
    refine verdictOf_bind fun given => ih within given fun e he => hplain e ?_
    exact List.mem_cons_of_mem _ he
  | element e ns ihc ih =>
    intro within tags hplain
    rw [sitesWithin_element] at hplain ⊢
    obtain ⟨hmarkup, hinside, hbehind⟩ : e.isHelper = false ∧
        (∀ f, .element f ∈ sitesWithin (e.name <|> within) (e.content.getD []) → f.isHelper = false) ∧
        ∀ f, .element f ∈ sitesWithin within ns → f.isHelper = false := by
      refine ⟨hplain e List.mem_cons_self, fun f hf => hplain f ?_, fun f hf => hplain f ?_⟩
      · exact List.mem_cons_of_mem _ (List.mem_append_left _ hf)
      · exact List.mem_cons_of_mem _ (List.mem_append_right _ hf)
    rw [judge_element, elementFault?_of_markup hmarkup, hmarkup, findSome?_cons_or, List.findSome?_append]
    refine verdictOf_bind fun given => ?_
    obtain ⟨between, hcontent⟩ := ihc (e.name <|> within) given hinside
    rw [if_neg (by simp), hcontent]
    exact verdictOf_bind fun given => ih within given hbehind

section

variable {d : Document} {parent : Option Template} (hplain : d.WithoutHelpers)
include hplain

/-- a document fails with the first thing that is wrong with a site, and is drafted if there is none -/
theorem draft_eq_error_iff_findSome? {err : CompileError} :
    draft d parent = .error err ↔ d.sites.findSome? (Site.fault? (d.surroundings (levelsOf parent))) = some err := by
  obtain ⟨given, hverdict⟩ := judge_eq_verdictOf (d.surroundings (levelsOf parent))
    (nodesHeight d.block.content + d.options.expansionLimit) d.block.content none [] hplain
  change d.verdict (levelsOf parent) = _ at hverdict
  rw [draft_eq_error_iff, hverdict, verdictOf_eq_error]
  rfl

theorem exists_draft_iff_obeys : (∃ t, draft d parent = .ok t) ↔ d.Obeys parent := by
  rw [obeys_iff_findSome?]
  constructor
  · rintro ⟨t, ht⟩
    refine Option.eq_none_iff_forall_ne_some.2 fun err herr => ?_
    rw [(draft_eq_error_iff_findSome? hplain).2 herr] at ht
    contradiction
  · intro hnone
    cases hd : draft d parent with
    | ok t => exact ⟨t, rfl⟩
    | error err =>
      rw [(draft_eq_error_iff_findSome? hplain).1 hd] at hnone
      contradiction

/-- a document that does not obey the rules fails with the first one that is broken -/
theorem draft_of_not_obeys (h : ¬ d.Obeys parent) :
    ∃ before site after err, d.sites = before ++ site :: after ∧
      (∀ site' ∈ before, ∀ err', ¬ Violates d parent site' err') ∧ Violates d parent site err ∧
      draft d parent = .error err := by
  rw [obeys_iff_findSome?, ← ne_eq, Option.ne_none_iff_exists'] at h
  obtain ⟨err, herr⟩ := h
  obtain ⟨before, site, after, hsites, hsite, hbefore⟩ := List.findSome?_eq_some_iff.1 herr
  refine ⟨before, site, after, err, hsites, fun site' hsite' err' hviolates => ?_, violates_iff.2 hsite, ?_⟩
  · have hfault := violates_iff.1 hviolates
    rw [hbefore site' hsite'] at hfault
    contradiction
  · exact (draft_eq_error_iff_findSome? hplain).2 herr

end

/-! ## Documents that compile -/

/-- **What compiles.** A document without helpers, as a root or on top of a template, compiles exactly if it obeys the
rules and no element that its rendering reaches contains itself. If it breaks a rule, it fails as the first site that
breaks one does; whether the targets of super calls among attributes are defined makes no difference. -/
theorem compile_rules {ds : List Document} {parent : Option Template} (h : Compiled ds parent) (d : Document)
    (hplain : d.WithoutHelpers) :
    ((∃ t, (compile d.block parent d.options).result = .ok t) ↔
        d.Obeys parent ∧ ∀ t, draft d parent = .ok t →
          ∀ name, LeadsTo t.chain name t.start → ¬ ContainsItself t.chain name) ∧
      (d.Obeys parent ↔ ∃ t, draft d parent = .ok t) ∧
      (¬ d.Obeys parent → ∃ before site after err, d.sites = before ++ site :: after ∧
        (∀ site' ∈ before, ∀ err', ¬ Violates d parent site' err') ∧ Violates d parent site err ∧
        (compile d.block parent d.options).result = .error err) := by
  have hexists : (∃ t, draft d parent = .ok t) ↔ d.Obeys parent := exists_draft_iff_obeys hplain
  have hspec (t : Template) (hd : draft d parent = .ok t) :
      t.recursiveElement? = none ↔ ∀ name, LeadsTo t.chain name t.start → ¬ ContainsItself t.chain name := by
    obtain ⟨rs, -, hr⟩ := draft_reads h hd
    have hspec := Template.recursiveElement?_spec hr.wellBound hr.fits_start
    cases hrecursive : t.recursiveElement? with
    | none =>
      rw [hrecursive] at hspec
      exact ⟨fun _ => hspec, fun _ => rfl⟩
    | some name =>
      rw [hrecursive] at hspec
      exact ⟨nofun, fun hnone => absurd hspec.2 (hnone name hspec.1)⟩
  refine ⟨?_, hexists.symm, ?_⟩
  · constructor
    · rintro ⟨t, ht⟩
      obtain ⟨hd, hnone⟩ := compile_eq_ok.1 ht
      refine ⟨hexists.1 ⟨t, hd⟩, fun t' hd' => ?_⟩
      cases hd.symm.trans hd'
      exact (hspec t hd).1 hnone
    · rintro ⟨hobeys, hfinite⟩
      obtain ⟨t, hd⟩ := hexists.2 hobeys
      exact ⟨t, compile_eq_ok.2 ⟨hd, (hspec t hd).2 (hfinite t hd)⟩⟩
  · intro hbroken
    obtain ⟨before, site, after, err, hsites, hbefore, hsite, herr⟩ := draft_of_not_obeys hplain hbroken
    refine ⟨before, site, after, err, hsites, hbefore, hsite, ?_⟩
    exact compile_eq_error_iff.2 (.inl (draft_eq_error_iff.1 herr))

/-- the inner element with its content and attributes and something more -/
def careful : Document where
  block := ⟨some "c", [.element ⟨false, none, some [some "inner"], some ⟨some {}, []⟩, some [.superCall {}, .text "t"]⟩]⟩

/-- content of an element that nothing defines, and behind it that of none -/
def careless : Document where
  block := ⟨some "c", [.element ⟨false, none, some [some "inner"], none, some [.superCall ⟨some "nowhere"⟩]⟩,
    .superCall ⟨none⟩]⟩

/-- a root that has no block name but an element with a name -/
def nameless : Document where
  block := ⟨none, [.element ⟨false, some "p", some [some "line"], none, some [.text "t"]⟩]⟩

/-- one document that compiles, two that break a rule, and one that breaks none but is endless -/
theorem documents_are_judged :
    ∃ base, Compiled [enclosing] (some base) ∧
      (careful.WithoutHelpers ∧ careful.Obeys (some base) ∧
        ∃ t, (compile careful.block (some base) careful.options).result = .ok t ∧
          ∀ name, LeadsTo t.chain name t.start → ¬ ContainsItself t.chain name) ∧
      (careless.WithoutHelpers ∧ ¬ careless.Obeys (some base) ∧
        ∃ before site after, careless.sites = before ++ site :: after ∧
          (∀ site' ∈ before, ∀ err, ¬ Violates careless (some base) site' err) ∧
          Violates careless (some base) site (.undefinedSuperTarget "nowhere") ∧
          (compile careless.block (some base) careless.options).result = .error (.undefinedSuperTarget "nowhere")) ∧
      (nameless.WithoutHelpers ∧ ¬ nameless.Obeys none ∧
        ∃ before site after, nameless.sites = before ++ site :: after ∧
          (∀ site' ∈ before, ∀ err, ¬ Violates nameless none site' err) ∧
          Violates nameless none site .missingBlockName ∧
          (compile nameless.block none nameless.options).result = .error .missingBlockName) ∧
      reentrant.WithoutHelpers ∧ reentrant.Obeys (some base) ∧
        (compile reentrant.block (some base) reentrant.options).result = .error (.recursiveElement "inner") ∧
        ∃ t name, draft reentrant (some base) = .ok t ∧ LeadsTo t.chain name t.start ∧ ContainsItself t.chain name := by
  obtain ⟨base, hbase⟩ : ∃ base, (compile enclosing.block none enclosing.options).result = .ok base := ⟨_, rfl⟩
  have hcompiled : Compiled [enclosing] (some base) := .document enclosing .none hbase
  have hplain : careful.WithoutHelpers ∧ careless.WithoutHelpers ∧ nameless.WithoutHelpers ∧
      reentrant.WithoutHelpers := by
    simp [Document.WithoutHelpers, Document.sites, sitesWithin, nodeSites, careful, careless, nameless, reentrant]
  refine ⟨base, hcompiled, ⟨hplain.1, ?_⟩, ⟨hplain.2.1, ?_⟩, ⟨hplain.2.2.1, ?_⟩, hplain.2.2.2, ?_⟩
  · obtain ⟨t, ht⟩ : ∃ t, (compile careful.block (some base) careful.options).result = .ok t := by
      cases hbase
      exact ⟨_, rfl⟩
    obtain ⟨haccepted, -⟩ := compile_rules hcompiled careful hplain.1
    obtain ⟨hobeys, hfinite⟩ := haccepted.1 ⟨t, ht⟩
    exact ⟨hobeys, t, ht, hfinite t (compile_eq_ok.1 ht).1⟩
  · have hrefused :
        (compile careless.block (some base) careless.options).result = .error (.undefinedSuperTarget "nowhere") := by
      cases hbase
      rfl
    have hbroken : ¬ careless.Obeys (some base) := by
      intro hobeys
      obtain ⟨target, htarget, -⟩ :=
        hobeys.calls none ⟨none⟩ (by simp [Document.sites, sitesWithin, nodeSites, careless])
      contradiction
    obtain ⟨-, -, hfails⟩ := compile_rules hcompiled careless hplain.2.1
    obtain ⟨before, site, after, err, hsplit, hbefore, hsite, herr⟩ := hfails hbroken
    cases hrefused.symm.trans herr
    exact ⟨hbroken, before, site, after, hsplit, hbefore, hsite, hrefused⟩
  · have hrefused : (compile nameless.block none nameless.options).result = .error .missingBlockName := rfl
    have hbroken : ¬ nameless.Obeys none := by
      intro hobeys
      have hprivate := hobeys.names rfl rfl ⟨false, some "p", some [some "line"], none, some [.text "t"]⟩
        (by simp [Document.sites, sitesWithin, nodeSites, nameless]) "line" (by simp [Element.allNames])
      exact absurd hprivate (by decide)
    obtain ⟨-, -, hfails⟩ := compile_rules .none nameless hplain.2.2.1
    obtain ⟨before, site, after, err, hsplit, hbefore, hsite, herr⟩ := hfails hbroken
    cases hrefused.symm.trans herr
    exact ⟨hbroken, before, site, after, hsplit, hbefore, hsite, hrefused⟩
  · have hrefused :
        (compile reentrant.block (some base) reentrant.options).result = .error (.recursiveElement "inner") := by
      cases hbase
      rfl
    obtain ⟨haccepted, hdrafted, -⟩ := compile_rules hcompiled reentrant hplain.2.2.2
    obtain ⟨t, ht, -⟩ := compile_eq_recursive.1 hrefused
    have hobeys := hdrafted.2 ⟨t, ht⟩
    refine ⟨hobeys, hrefused, Classical.byContradiction fun hnone => ?_⟩
    obtain ⟨t', ht'⟩ := haccepted.2 ⟨hobeys, fun t ht name hleads hself => hnone ⟨t, name, ht, hleads, hself⟩⟩
    rw [hrefused] at ht'
    contradiction

end BlockTemplates
