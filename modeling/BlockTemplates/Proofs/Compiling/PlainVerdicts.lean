/-
Verdicts on plain nodes. Where every element stands for its content, what is wrong with nodes is found along the tree, and
how deep helpers can be expanded makes no difference as soon as it is deep enough. In a root document it does not matter
either in which named element a node stands, nor which tags names have.

Main statements: `judge_plain_element`, `judge_fill_section` (a section without a name is judged like its content) and
`exists_draft_root_iff` (a root document is in order if each of its nodes is).
-/
import BlockTemplates.Proofs.Compiling.HelperDepth
import BlockTemplates.Proofs.Reading.PlainContent

namespace BlockTemplates

open Markup Render

section

variable {env : Surroundings} {depth : Nat}

/-! ## Along the tree -/

/-- more depth than that of the helper elements makes no difference to the verdict on plain nodes -/
theorem judge_of_le {depth' : Nat} (hd : depth ≤ depth') {ns : List Node} (hplain : env.context.Plain ns)
    (hns : HelpersWithin depth ns) (within : Option String) (tags : Tags) :
    judge env depth' within tags ns = judge env depth within tags ns := by
  -- the content of a helper element is judged with one less of either depth
  induction depth using Nat.strongRecOn generalizing depth' ns within tags with
  | ind depth ihd =>
    induction ns using nodes_induction generalizing within tags with
    | nil => simp only [judge_nil]
    | text value ns ih =>
      simp only [Context.Plain, HelpersWithin, elementsIn_text] at hplain hns
      rw [judge_text, judge_text, ih hplain hns]
    | comment value multiline ns ih =>
      simp only [Context.Plain, HelpersWithin, elementsIn_comment] at hplain hns
      rw [judge_comment, judge_comment, ih hplain hns]
    | superCall call ns ih =>
      simp only [Context.Plain, HelpersWithin, elementsIn_superCall] at hplain hns
      simp only [judge_superCall, ih hplain hns]
    | element e ns ihc ih =>
      obtain ⟨he, hcontent, hbehind⟩ := plain_element.1 hplain
      obtain ⟨hheight, hnsContent, hnsBehind⟩ := helpersWithin_element.1 hns
      have hchildren (given : Tags) :
          (if e.isHelper then judgeReplaced env depth' (e.name <|> within) given (e.content.getD [])
            else judge env depth' (e.name <|> within) given (e.content.getD [])) =
          if e.isHelper then judgeReplaced env depth (e.name <|> within) given (e.content.getD [])
            else judge env depth (e.name <|> within) given (e.content.getD []) := by
        split
        · rename_i hh
          have hle := hheight hh
          rw [height_element] at hle
          cases depth with
          | zero => omega
          | succ depth =>
            cases depth' with
            | zero => omega
            | succ depth' =>
              refine ihd depth (Nat.lt_succ_self depth) (Nat.le_of_succ_le_succ hd) hcontent ?_ _ _
              exact (helpersWithin_nodesHeight _).mono (Nat.le_of_succ_le_succ hle)
        · exact ihc hcontent hnsContent _ _
      simp only [judge_element, he tags, Option.getD_some, hchildren, ih hbehind hnsBehind]

theorem judge_plain_element {e : Element} {ns : List Node} (hplain : env.context.Plain (.element e :: ns))
    (hns : HelpersWithin depth (.element e :: ns)) (within : Option String) (tags : Tags) :
    judge env depth within tags (.element e :: ns) =
      (verdictOf (env.elementFault? e (env.context.tagOf tags e)) (tags.after e) >>= fun given =>
        judge env depth (e.name <|> within) given (e.content.getD []) >>= fun given =>
          judge env depth within given ns) := by
  obtain ⟨he, hcontent, -⟩ := plain_element.1 hplain
  obtain ⟨hheight, -, -⟩ := helpersWithin_element.1 hns
  have hchildren (given : Tags) :
      (if e.isHelper then judgeReplaced env depth (e.name <|> within) given (e.content.getD [])
        else judge env depth (e.name <|> within) given (e.content.getD [])) =
      judge env depth (e.name <|> within) given (e.content.getD []) := by
    split
    · rename_i hh
      have hle := hheight hh
      rw [height_element] at hle
      cases depth with
      | zero => omega
      | succ depth =>
        refine (judge_of_le (Nat.le_succ depth) hcontent ?_ _ _).symm
        exact (helpersWithin_nodesHeight _).mono (Nat.le_of_succ_le_succ hle)
    · rfl
  simp only [judge_element, he tags, Option.getD_some, hchildren]

theorem judge_append (ns ns' : List Node) (within : Option String) (tags : Tags) :
    judge env depth within tags (ns ++ ns') =
      judge env depth within tags ns >>= fun given => judge env depth within given ns' := by
  simp only [judge_eq]
  induction ns generalizing tags with
  | nil => rfl
  | cons n ns ih => simp only [List.cons_append, judgeNodes, ih, bind_assoc]

/-! ## Sections without a name -/

/-- a helper element that stands for its content has a helper -/
theorem helperFault?_eq_none {e : Element} {tag : Option String} {nodes : List Node} (hh : e.isHelper = true)
    (h : env.context.inner e tag = some nodes) : env.helperFault? tag = none := by
  simp only [Context.inner, hh, if_true, Option.map_eq_some_iff, Option.bind_eq_some_iff] at h
  obtain ⟨helper, ⟨name, rfl, hfind⟩, -⟩ := h
  have hfound : env.helpers.find? name = some helper := hfind
  simp [Surroundings.helperFault?, hfound]

/-- a helper element without a name is judged like the content that it stands for, wherever it stands -/
theorem judge_fill_section {e : Element} (hn : e.name = none) (hh : e.isHelper = true) {hole : Hole}
    (hplain : env.context.Plain (hole.fill [.element e])) (hplain' : env.context.Plain (hole.fill (e.content.getD [])))
    (hns : HelpersWithin depth (hole.fill [.element e]))
    (hns' : HelpersWithin depth (hole.fill (e.content.getD []))) (within : Option String) (tags : Tags) :
    judge env depth within tags (hole.fill [.element e]) =
      judge env depth within tags (hole.fill (e.content.getD [])) := by
  induction hole generalizing within tags with
  | among before after =>
    have hplainElement : env.context.Plain [.element e] := (plain_append.1 (plain_append.1 hplain).2).1
    have hnsElement : HelpersWithin depth [.element e] := by
      simp only [Hole.fill, HelpersWithin, elementsIn_append, List.forall_mem_append] at hns
      exact hns.2.1
    have hfault (tags : Tags) : env.elementFault? e (env.context.tagOf tags e) = none := by
      simp [Surroundings.elementFault?, hh, hn, helperFault?_eq_none hh ((plain_element.1 hplainElement).1 tags)]
    have helement (tags : Tags) :
        judge env depth within tags [.element e] = judge env depth within tags (e.content.getD []) := by
      rw [judge_plain_element hplainElement hnsElement, hfault, hn, Tags.after_of_anonymous hn]
      simp only [judge_nil]
      exact bind_pure (judge env depth within tags (e.content.getD []))
    simp only [Hole.fill, judge_append, helement]
  | inside before f hole after ih =>
    simp only [Hole.fill] at hplain hplain' hns hns' ⊢
    rw [plain_append] at hplain hplain'
    have hnsElement := fun g hg => hns g (by rw [elementsIn_append]; exact List.mem_append_right _ hg)
    have hnsElement' := fun g hg => hns' g (by rw [elementsIn_append]; exact List.mem_append_right _ hg)
    obtain ⟨-, hcontent, -⟩ := plain_element.1 hplain.2
    obtain ⟨-, hcontent', -⟩ := plain_element.1 hplain'.2
    obtain ⟨-, hnsContent, -⟩ := helpersWithin_element.1 hnsElement
    obtain ⟨-, hnsContent', -⟩ := helpersWithin_element.1 hnsElement'
    simp only [judge_append, judge_plain_element hplain.2 hnsElement, judge_plain_element hplain'.2 hnsElement',
      Option.getD_some, ih hcontent hcontent' hnsContent hnsContent']
    rfl

/-! ## Root documents -/

/-- nothing is wrong with the node in a root document, apart from what it contains; super calls have no place there -/
def Surroundings.Accepts (env : Surroundings) : Node → Prop
  | .element e => ∀ tags, env.elementFault? e (env.context.tagOf tags e) = none
  | .text _ | .comment _ _ => True
  | .superCall _ => False

/-- a root has nothing that a super call among attributes could start from -/
theorem attributeFault?_root_iff (henv : env.ancestors = []) {e : Element} :
    env.attributeFault? e = none ↔ e.attributes.bind (·.superCall) = none := by
  unfold Surroundings.attributeFault?
  cases e.attributes.bind (·.superCall) with
  | none => simp
  | some call =>
    simp only [Option.bind_some, henv, List.isEmpty_nil, if_true]
    split
    · simp
    · simp

/-- the tags that names have make no difference to what is wrong with an element that stands for its content -/
theorem elementFault?_of_plain {e : Element}
    (he : ∀ tags, env.context.inner e (env.context.tagOf tags e) = some (e.content.getD [])) (tags tags' : Tags) :
    env.elementFault? e (env.context.tagOf tags e) = env.elementFault? e (env.context.tagOf tags' e) := by
  unfold Surroundings.elementFault?
  split
  · rename_i hh
    rw [helperFault?_eq_none hh (he tags), helperFault?_eq_none hh (he tags')]
  · rfl

/-- in a root document each node is judged by itself -/
theorem judge_root_iff (henv : env.ancestors = []) {ns : List Node} (hplain : env.context.Plain ns)
    (hns : HelpersWithin depth ns) (within : Option String) (tags : Tags) :
    (∃ given, judge env depth within tags ns = .ok given) ↔ ∀ n ∈ allNodes ns, env.Accepts n := by
  induction ns using nodes_induction generalizing within tags with
  | nil => simp [judge_nil, allNodes]
  | text value ns ih =>
    simp only [Context.Plain, HelpersWithin, elementsIn_text] at hplain hns
    simp only [judge_text, ih hplain hns, allNodes, Node.all, List.singleton_append, List.forall_mem_cons,
      Surroundings.Accepts, true_and]
  | comment value multiline ns ih =>
    simp only [Context.Plain, HelpersWithin, elementsIn_comment] at hplain hns
    simp only [judge_comment, ih hplain hns, allNodes, Node.all, List.singleton_append, List.forall_mem_cons,
      Surroundings.Accepts, true_and]
  | superCall call ns ih =>
    have hfault : env.callFault? within call ≠ none := by
      unfold Surroundings.callFault?
      split
      · simp
      · simp [henv]
    simp only [judge_superCall, except_bind_eq_ok, verdictOf_eq_ok, hfault, allNodes, Node.all, List.singleton_append,
      List.forall_mem_cons, Surroundings.Accepts, false_and, exists_false]
  | element e ns ihc ih =>
    obtain ⟨he, hcontent, hbehind⟩ := plain_element.1 hplain
    obtain ⟨-, hnsContent, hnsBehind⟩ := helpersWithin_element.1 hns
    rw [judge_plain_element hplain hns, allNodes_element, List.forall_mem_cons, List.forall_mem_append,
      ← ihc hcontent hnsContent (e.name <|> within) (tags.after e)]
    constructor
    · rintro ⟨given, h⟩
      obtain ⟨_, hbegun, h⟩ := except_bind_eq_ok.1 h
      obtain ⟨hfault, rfl⟩ := verdictOf_eq_ok.1 hbegun
      obtain ⟨between, hjudged, h⟩ := except_bind_eq_ok.1 h
      refine ⟨fun tags' => (elementFault?_of_plain he tags' tags).trans hfault, ⟨between, hjudged⟩, ?_⟩
      exact (ih hbehind hnsBehind within between).1 ⟨given, h⟩
    · rintro ⟨hfault, ⟨between, hjudged⟩, h⟩
      obtain ⟨given, h⟩ := (ih hbehind hnsBehind within between).2 h
      refine ⟨given, ?_⟩
      rw [hfault tags, except_bind_eq_ok]
      exact ⟨_, verdictOf_eq_ok.2 ⟨rfl, rfl⟩, except_bind_eq_ok.2 ⟨between, hjudged, h⟩⟩

end

theorem exists_draft_root_iff {d : Document} (hplain : (contextOver d.options.helpers []).Plain d.block.content) :
    (∃ t, draft d none = .ok t) ↔ ∀ n ∈ allNodes d.block.content, (d.surroundings []).Accepts n := by
  have hcontext : (d.surroundings []).context.Plain d.block.content := by rwa [Realised.nil.context d]
  have hns := (helpersWithin_nodesHeight d.block.content).mono (Nat.le_add_right _ d.options.expansionLimit)
  rw [← judge_root_iff rfl hcontext hns none []]
  constructor
  · rintro ⟨t, ht⟩
    exact verdict_of_draft ht
  · rintro ⟨given, hgiven⟩
    have hverdict := draft_verdict d none
    have hgiven : d.verdict (levelsOf none) = .ok given := hgiven
    rw [hgiven] at hverdict
    obtain ⟨t, ht, -⟩ := hverdict
    exact ⟨t, ht⟩

/-- a root that is in order has no super calls in content -/
theorem superCall_not_mem_of_draft {d : Document} (hplain : (contextOver d.options.helpers []).Plain d.block.content)
    (h : ∃ t, draft d none = .ok t) (call : SuperCall) : Node.superCall call ∉ allNodes d.block.content :=
  fun hmem => (exists_draft_root_iff hplain).1 h _ hmem

/-- a root document stays in order with other nodes in a hole, if they are in order like those in their place -/
theorem exists_draft_fill_iff {name : Option String} {options : Options} {hole : Hole} {ns ns' : List Node}
    (hplain : (contextOver options.helpers []).Plain (hole.fill ns))
    (hplain' : (contextOver options.helpers []).Plain (hole.fill ns'))
    (h : (∀ n ∈ allNodes ns, (Document.surroundings ⟨⟨name, []⟩, options⟩ []).Accepts n) ↔
      ∀ n ∈ allNodes ns', (Document.surroundings ⟨⟨name, []⟩, options⟩ []).Accepts n) :
    (∃ t, draft ⟨⟨name, hole.fill ns⟩, options⟩ none = .ok t) ↔
      ∃ t, draft ⟨⟨name, hole.fill ns'⟩, options⟩ none = .ok t := by
  rw [exists_draft_root_iff hplain, exists_draft_root_iff hplain']
  exact ⟨forall_allNodes_fill (fun _ _ _ he => he) h.1, forall_allNodes_fill (fun _ _ _ he => he) h.2⟩

end BlockTemplates
