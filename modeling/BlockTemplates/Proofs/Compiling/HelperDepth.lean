/-
Replacing helper elements comes to an end. Where helpers only pass on helper elements, from the content of the element
that they replace, what is returned nests them less deep than what was written, whatever else a helper copies, adds or
leaves out. The nesting of the document is then enough for all replacements, and the limit on further ones is neither
reached nor does it make a difference.

Main statements: `Registry.PassesOn.inner` (one replacement), `walk_of_le` (more depth than that of the helper elements
makes no difference to a walk), `judge_ne_expansionTooDeep` (and it is enough) and `expansion_ends`.
-/
import BlockTemplates.Proofs.Compiling.Verdict
import BlockTemplates.Proofs.Markup.Places

namespace BlockTemplates

open Markup Render

/-! ## The depth of helper elements -/

/-- whatever element a helper receives, the helper elements in what it returns stand in the content of that element -/
def Registry.PassesOn (helpers : Registry) : Prop :=
  ∀ name helper, helpers.find? name = some helper → ∀ e, ∀ f ∈ elementsIn ((helper e).getD []),
    f.isHelper = true → f ∈ elementsIn (e.content.getD [])

theorem passesOn_builtins : Registry.builtins.PassesOn := by
  intro name helper hfind e f hf _
  simp only [Registry.builtins, Registry.find?, List.lookup_cons, List.lookup_nil] at hfind
  split at hfind
  · cases hfind
    exact hf
  · cases hfind

/-- elements are nested at most `depth` deep in the helper elements of the nodes, these included -/
def HelpersWithin (depth : Nat) (ns : List Node) : Prop :=
  ∀ f ∈ elementsIn ns, f.isHelper = true → (Node.element f).height ≤ depth

theorem helpersWithin_nodesHeight (ns : List Node) : HelpersWithin (nodesHeight ns) ns :=
  fun _ hf _ => height_le_of_mem_elementsIn hf

theorem HelpersWithin.mono {depth depth' : Nat} {ns : List Node} (h : HelpersWithin depth ns) (hd : depth ≤ depth') :
    HelpersWithin depth' ns := fun f hf hh => Nat.le_trans (h f hf hh) hd

theorem helpersWithin_element {depth : Nat} {e : Element} {ns : List Node} :
    HelpersWithin depth (.element e :: ns) ↔
      (e.isHelper = true → (Node.element e).height ≤ depth) ∧ HelpersWithin depth (e.content.getD []) ∧
        HelpersWithin depth ns := by
  simp only [HelpersWithin, elementsIn_element, List.forall_mem_cons, List.forall_mem_append]

/-- what a helper returns nests helper elements less deep than the element that it replaces -/
theorem Registry.PassesOn.inner {ctx : Context} (h : ctx.helpers.PassesOn) {depth : Nat} {e : Element}
    {tag : Option String} {nodes : List Node} (hh : e.isHelper = true) (he : (Node.element e).height ≤ depth + 1)
    (hinner : ctx.inner e tag = some nodes) : HelpersWithin depth nodes := by
  simp only [Context.inner, hh, if_true, Option.map_eq_some_iff, Option.bind_eq_some_iff] at hinner
  obtain ⟨helper, ⟨name, -, hfind⟩, rfl⟩ := hinner
  intro f hf hf'
  have hpassed := height_le_of_mem_elementsIn (h name helper hfind e f hf hf')
  have hheight := height_element e
  omega

/-! ## More depth makes no difference -/

/-- what follows the expansion of a helper element is given what the helper returns -/
theorem expansion_bind_congr {α : Type} {env : Surroundings} {e : Element} {tag : Option String}
    {k k' : List Node → Walk α} (hh : e.isHelper = true)
    (h : ∀ nodes, env.context.inner e tag = some nodes → k nodes = k' nodes) :
    expansion env e tag >>= k = expansion env e tag >>= k' := by
  unfold expansion
  cases tag with
  | none => rfl
  | some name =>
    dsimp only
    cases hfind : env.helpers.find? name with
    | none => rfl
    | some helper =>
      have hinner : env.context.inner e (some name) = some ((helper e).getD []) := by
        simp [Context.inner, hh, Surroundings.context, hfind]
      simp only [bind_assoc, pure_bind, h _ hinner]

/-- a walk depends on how nodes are compiled that helpers return, and on no others -/
theorem compileNodes_congr {env : Surroundings} {expand expand' : Scope → List Node → Walk Scope} {ns : List Node}
    (h : ∀ e ∈ elementsIn ns, e.isHelper = true → ∀ tag nodes, env.context.inner e tag = some nodes →
      ∀ scope, expand scope nodes = expand' scope nodes) (scope : Scope) :
    compileNodes env expand scope ns = compileNodes env expand' scope ns := by
  induction ns using nodes_induction generalizing scope with
  | nil => rfl
  | text value ns ih =>
    simp only [elementsIn_text] at h
    simp only [compileNodes, compileNode, ih h]
  | comment value multiline ns ih =>
    simp only [elementsIn_comment] at h
    simp only [compileNodes, compileNode, ih h]
  | superCall call ns ih =>
    simp only [elementsIn_superCall] at h
    simp only [compileNodes, compileNode, ih h]
  | element e ns ihc ih =>
    simp only [elementsIn_element, List.forall_mem_cons, List.forall_mem_append] at h
    obtain ⟨he, hcontent, hbehind⟩ := h
    have hchildren (tag : Option String) :
        childrenOf env expand e (compileNodes env expand · (e.content.getD [])) tag =
          childrenOf env expand' e (compileNodes env expand' · (e.content.getD [])) tag := by
      funext inner
      unfold childrenOf
      split
      · rename_i hh
        exact expansion_bind_congr hh fun nodes hnodes => he hh tag nodes hnodes inner
      · exact ihc hcontent inner
    simp only [compileNodes, compileNode_element, compileElement_eq, hchildren, ih hbehind]

/-- with more depth than helper elements are nested, a walk does the same -/
theorem walk_of_le {env : Surroundings} (h : env.helpers.PassesOn) {depth depth' : Nat} (hd : depth ≤ depth')
    {ns : List Node} (hns : HelpersWithin depth ns) (scope : Scope) :
    walk env depth' scope ns = walk env depth scope ns := by
  -- induction on the depth that is enough: what helpers return gets by with one less
  induction depth generalizing depth' ns scope with
  | zero =>
    have hnone : ∀ e ∈ elementsIn ns, e.isHelper ≠ true := by
      intro e he hh
      have hheight := height_element e
      have hzero := hns e he hh
      omega
    cases depth' with
    | zero => rfl
    | succ depth' => exact compileNodes_congr (fun e he hh => absurd hh (hnone e he)) scope
  | succ depth ih =>
    cases depth' with
    | zero => omega
    | succ depth' =>
      refine compileNodes_congr (fun e he hh tag nodes hnodes inner => ?_) scope
      exact ih (Nat.le_of_succ_le_succ hd) (h.inner hh (hns e he hh) hnodes) inner

/-! ## The depth is enough -/

section

variable {env : Surroundings}

theorem callFault?_ne_expansionTooDeep (within : Option String) (call : SuperCall) :
    env.callFault? within call ≠ some .expansionTooDeep := by
  unfold Surroundings.callFault?
  split
  · simp
  · split
    · simp
    · split
      · simp
      · simp

theorem elementFault?_ne_expansionTooDeep (e : Element) (tag : Option String) :
    env.elementFault? e tag ≠ some .expansionTooDeep := by
  intro h
  simpa using elementFault?_eq_some h

/-- a walk that can go as deep as helper elements are nested does not fail for want of depth -/
theorem judge_ne_expansionTooDeep (h : env.helpers.PassesOn) {depth : Nat} {ns : List Node}
    (hns : HelpersWithin depth ns) (within : Option String) (tags : Tags) :
    judge env depth within tags ns ≠ .error .expansionTooDeep := by
  induction depth using Nat.strongRecOn generalizing ns within tags with
  | ind depth ihd =>
    induction ns using nodes_induction generalizing within tags with
    | nil => simp [judge_nil]
    | text value ns ih =>
      rw [judge_text]
      exact ih (by simpa [HelpersWithin] using hns) within tags
    | comment value multiline ns ih =>
      rw [judge_comment]
      exact ih (by simpa [HelpersWithin] using hns) within tags
    | superCall call ns ih =>
      rw [judge_superCall, ne_eq, except_bind_eq_error, verdictOf_eq_error]
      rintro (hfault | ⟨given, -, hbehind⟩)
      · exact callFault?_ne_expansionTooDeep within call hfault
      · exact ih (by simpa [HelpersWithin] using hns) within given hbehind
    | element e ns ihc ih =>
      obtain ⟨he, hcontent, hbehind⟩ := helpersWithin_element.1 hns
      simp only [judge_element, ne_eq, except_bind_eq_error, verdictOf_eq_error, verdictOf_eq_ok]
      rintro (hfault | ⟨given, ⟨hfault, rfl⟩, hchildren | ⟨given', -, hrest⟩⟩)
      · exact elementFault?_ne_expansionTooDeep e _ hfault
      · cases hh : e.isHelper with
        | false =>
          simp only [hh, Bool.false_eq_true, if_false] at hchildren
          exact ihc hcontent _ _ hchildren
        | true =>
          simp only [hh, if_true] at hchildren
          have hheight := he hh
          cases depth with
          | zero =>
            have hpos := height_element e
            omega
          | succ depth =>
            refine ihd depth (Nat.lt_succ_self depth) ?_ _ _ hchildren
            cases hinner : env.context.inner e (env.context.tagOf tags e) with
            | none => simp [HelpersWithin]
            | some nodes => exact h.inner hh hheight hinner
      · exact ih hbehind within given' hrest

end

/-! ## Documents -/

theorem compile_expansionLimit {block : Block} {options : Options} (h : options.helpers.PassesOn)
    (parent : Option Template) (limit : Nat) :
    compile block parent { options with expansionLimit := limit } = compile block parent options := by
  have hwalk (env : Surroundings) (henv : env.helpers = options.helpers) (limit : Nat) :
      walk env (nodesHeight block.content + limit) {} block.content =
        walk env (nodesHeight block.content) {} block.content :=
    walk_of_le (henv ▸ h) (Nat.le_add_right _ _) (helpersWithin_nodesHeight _) {}
  simp only [compile, hwalk]

/-- **Replacing helpers ends.** Where the helper elements in what a helper returns stand in the content that it received,
a document compiles to a template or fails with an error that is not one of depth, as a root or on top of any template;
the limit on how deep helpers are expanded makes no difference, not even to what is reported. -/
theorem expansion_ends (block : Block) (parent : Option Template) (options : Options) (h : options.helpers.PassesOn) :
    ((∃ t, (compile block parent options).result = .ok t) ∨
        ∃ err, err ≠ .expansionTooDeep ∧ (compile block parent options).result = .error err) ∧
      ∀ limit, compile block parent { options with expansionLimit := limit } = compile block parent options := by
  refine ⟨?_, compile_expansionLimit h parent⟩
  cases hresult : (compile block parent options).result with
  | ok t => exact .inl ⟨t, rfl⟩
  | error err =>
    refine .inr ⟨err, ?_, rfl⟩
    rintro rfl
    let d : Document := ⟨block, options⟩
    have herror : (compile d.block parent d.options).result = .error .expansionTooDeep := hresult
    rcases compile_eq_error_iff.1 herror with hverdict | ⟨t, name, -, -, herr⟩
    · have hwithin := (helpersWithin_nodesHeight block.content).mono (Nat.le_add_right _ options.expansionLimit)
      refine judge_ne_expansionTooDeep ?_ hwithin none [] hverdict
      exact h
    · cases herr

/-- writes the content twice, with a line between -/
def twiceHelper : Helper := fun e =>
  some (e.content.getD [] ++ .element ⟨false, some "hr", none, none, none⟩ :: e.content.getD [])

/-- sections and the helper that writes its content twice -/
def twiceHelpers : Registry := Registry.builtins.register "twice" twiceHelper

theorem passesOn_twiceHelpers : twiceHelpers.PassesOn := by
  intro name helper hfind e f hf hh
  by_cases hname : name = "twice"
  · subst hname
    rw [twiceHelpers, Registry.find?_register_self] at hfind
    cases hfind
    simp only [twiceHelper, Option.getD_some, elementsIn_append, elementsIn_element, List.mem_append, List.mem_cons,
      Option.getD_none, elementsIn_nil, List.not_mem_nil, false_or] at hf
    rcases hf with hf | rfl | hf
    · exact hf
    · contradiction
    · exact hf
  · rw [twiceHelpers, Registry.find?_register_of_ne _ hname] at hfind
    exact passesOn_builtins name helper hfind e f hf hh

/-- a section in the helper that writes its content twice, in itself -/
def fourTimes : Block where
  name := some "b"
  content := [.element ⟨true, some "twice", none, none, some [.element ⟨true, some "twice", none, none,
    some [.element ⟨true, some "section", none, none, some [.text "a"]⟩]⟩]⟩]

theorem fourTimes_ends :
    twiceHelpers.PassesOn ∧ ∃ t, (compile fourTimes none { helpers := twiceHelpers }).result = .ok t ∧
      t.render = .ok "a<hr>a<hr>a<hr>a" ∧
      ∀ limit, compile fourTimes none { helpers := twiceHelpers, expansionLimit := limit } =
        compile fourTimes none { helpers := twiceHelpers } := by
  obtain ⟨-, hlimit⟩ := expansion_ends fourTimes none { helpers := twiceHelpers } passesOn_twiceHelpers
  obtain ⟨t, ht, hrender⟩ : ∃ t, (compile fourTimes none { helpers := twiceHelpers }).result = .ok t ∧
      t.render = .ok "a<hr>a<hr>a<hr>a" := by
    rw [← hlimit 0]
    exact ⟨_, rfl, rfl⟩
  exact ⟨passesOn_twiceHelpers, t, ht, hrender, hlimit⟩

end BlockTemplates
