/-
What a walk over a document comes to. The verdict on nodes is given without operations, definitions or a record: it goes
through the nodes in order, knows the tags that names have by then, and stops at the first thing that is wrong. A walk
fails with what its verdict says, and succeeds where the verdict finds nothing.

Main statements: `walk_judged` (a walk does what its verdict says), `draft_eq_error_iff` and `compile_eq_error_iff` (what
a document fails with), `Reads.elementFault?_eq_none` (nothing is wrong with the elements of what is in order).
-/
import BlockTemplates.Proofs.Reading.Failures
import BlockTemplates.Proofs.Reading.Occurrences

namespace BlockTemplates

open Html Markup Render

/-! ## What can be wrong -/

namespace Surroundings

variable (env : Surroundings)

/-- what is wrong with a super call in content, inside the named element `within` -/
def callFault? (within : Option String) (call : SuperCall) : Option CompileError :=
  match call.elementName <|> within with
  | none => some .superOutsideElement
  | some target =>
    if env.ancestors.isEmpty then some (.superWithoutParent .content)
    else if (findBody target env.ancestors).isNone then some (.undefinedSuperTarget target)
    else none

/-- what is wrong with a super call among the attributes of an element -/
def attributeFault? (e : Element) : Option CompileError :=
  (e.attributes.bind (·.superCall)).bind fun call =>
    if (call.elementName <|> e.name).isNone then some .anonymousAttributeSuper
    else if env.ancestors.isEmpty then some (.superWithoutParent .attributes)
    else none

/-- what is wrong with the class tokens of an element -/
def classFault? (e : Element) : Option CompileError :=
  if e.classNames ≠ [] ∧ ¬ env.hasPrefixes then some .missingBlockName else none

/-- what is wrong with the name of a helper -/
def helperFault? (tag : Option String) : Option CompileError :=
  match tag with
  | none => some .unresolvedHelperName
  | some name => if (env.helpers.find? name).isNone then some (.undefinedHelper name) else none

/-- what is wrong with an element, its content apart; helper elements have no class tokens, and without a name no
attributes -/
def elementFault? (e : Element) (tag : Option String) : Option CompileError :=
  if e.isHelper then (if e.name.isSome then env.attributeFault? e else none).or (env.helperFault? tag)
  else (env.attributeFault? e).or (env.classFault? e)

end Surroundings

/-- what can be wrong with an element -/
theorem elementFault?_eq_some {env : Surroundings} {e : Element} {tag : Option String} {err : CompileError}
    (h : env.elementFault? e tag = some err) :
    err = .anonymousAttributeSuper ∨ err = .superWithoutParent .attributes ∨ err = .missingBlockName ∨
      err = .unresolvedHelperName ∨ ∃ name, err = .undefinedHelper name := by
  have hattributes (h : env.attributeFault? e = some err) :
      err = .anonymousAttributeSuper ∨ err = .superWithoutParent .attributes := by
    obtain ⟨call, -, h⟩ := Option.bind_eq_some_iff.1 h
    split at h
    · exact .inl (Option.some.inj h).symm
    · split at h
      · exact .inr (Option.some.inj h).symm
      · cases h
  have hclass (h : env.classFault? e = some err) : err = .missingBlockName := by
    unfold Surroundings.classFault? at h
    split at h
    · exact (Option.some.inj h).symm
    · cases h
  have hhelper (h : env.helperFault? tag = some err) :
      err = .unresolvedHelperName ∨ ∃ name, err = .undefinedHelper name := by
    unfold Surroundings.helperFault? at h
    split at h
    · exact .inl (Option.some.inj h).symm
    · split at h
      · exact .inr ⟨_, (Option.some.inj h).symm⟩
      · cases h
  unfold Surroundings.elementFault? at h
  split at h
  · rcases Option.or_eq_some_iff.1 h with h | ⟨-, h⟩
    · split at h
      · rcases hattributes h with h | h
        · exact .inl h
        · exact .inr (.inl h)
      · cases h
    · exact .inr (.inr (.inr (hhelper h)))
  · rcases Option.or_eq_some_iff.1 h with h | ⟨-, h⟩
    · rcases hattributes h with h | h
      · exact .inl h
      · exact .inr (.inl h)
    · exact .inr (.inr (.inl (hclass h)))

/-! ## Verdicts -/

/-- what is wrong, or the tags that names have behind the nodes -/
abbrev Verdict := Except CompileError Tags

/-- the verdict where something may be wrong -/
def verdictOf (fault : Option CompileError) (tags : Tags) : Verdict :=
  match fault with
  | some err => .error err
  | none => .ok tags

/-- the verdict on an element, given those on its content and on what a helper returns -/
def judgeElement (env : Surroundings) (expand : Option String → Tags → List Node → Verdict) (e : Element)
    (content : Option String → Tags → Verdict) (within : Option String) (tags : Tags) : Verdict := do
  let tag := env.context.tagOf tags e
  let given ← verdictOf (env.elementFault? e tag) (tags.after e)
  if e.isHelper then expand (e.name <|> within) given ((env.context.inner e tag).getD [])
  else content (e.name <|> within) given

mutual

def judgeNode (env : Surroundings) (expand : Option String → Tags → List Node → Verdict) (within : Option String)
    (tags : Tags) : Node → Verdict
  | .element ⟨helper, tag, names, attributes, none⟩ =>
    judgeElement env expand ⟨helper, tag, names, attributes, none⟩ (fun _ given => .ok given) within tags
  | .element ⟨helper, tag, names, attributes, some content⟩ =>
    judgeElement env expand ⟨helper, tag, names, attributes, some content⟩
      (fun inside given => judgeNodes env expand inside given content) within tags
  | .text _ | .comment _ _ => .ok tags
  | .superCall call => verdictOf (env.callFault? within call) tags

def judgeNodes (env : Surroundings) (expand : Option String → Tags → List Node → Verdict) (within : Option String)
    (tags : Tags) : List Node → Verdict
  | [] => .ok tags
  | n :: ns => do judgeNodes env expand within (← judgeNode env expand within tags n) ns

end

/-- the verdict on nodes inside the named element `within`, with helpers expanded at most `depth` deep -/
def judge (env : Surroundings) : Nat → Option String → Tags → List Node → Verdict
  | 0, within, tags, nodes => judgeNodes env (fun _ _ _ => .error .expansionTooDeep) within tags nodes
  | depth + 1, within, tags, nodes => judgeNodes env (judge env depth) within tags nodes

theorem judgeNode_element (env : Surroundings) (expand : Option String → Tags → List Node → Verdict)
    (within : Option String) (tags : Tags) (e : Element) :
    judgeNode env expand within tags (.element e) =
      judgeElement env expand e (fun inside given => judgeNodes env expand inside given (e.content.getD [])) within
        tags := by
  obtain ⟨helper, tag, names, attributes, content⟩ := e
  cases content with
  | none => simp only [judgeNode, Option.getD_none, judgeNodes]
  | some content => simp only [judgeNode, Option.getD_some]

/-! ## Node by node -/

/-- the verdict on what a helper returns, where helpers can be expanded `depth` deep -/
def judgeReplaced (env : Surroundings) : Nat → Option String → Tags → List Node → Verdict
  | 0, _, _, _ => .error .expansionTooDeep
  | depth + 1, within, tags, nodes => judge env depth within tags nodes

section

variable (env : Surroundings) (depth : Nat) (within : Option String) (tags : Tags)

theorem judge_eq (nodes : List Node) :
    judge env depth within tags nodes = judgeNodes env (judgeReplaced env depth) within tags nodes := by
  cases depth with
  | zero => rfl
  | succ depth => rfl

theorem judge_nil : judge env depth within tags [] = .ok tags := by simp only [judge_eq, judgeNodes]

theorem judge_text (value : String) (nodes : List Node) :
    judge env depth within tags (.text value :: nodes) = judge env depth within tags nodes := by
  simp only [judge_eq, judgeNodes, judgeNode, bind, Except.bind]

theorem judge_comment (value : String) (multiline : Bool) (nodes : List Node) :
    judge env depth within tags (.comment value multiline :: nodes) = judge env depth within tags nodes := by
  simp only [judge_eq, judgeNodes, judgeNode, bind, Except.bind]

theorem judge_superCall (call : SuperCall) (nodes : List Node) :
    judge env depth within tags (.superCall call :: nodes) =
      verdictOf (env.callFault? within call) tags >>= fun given => judge env depth within given nodes := by
  simp only [judge_eq, judgeNodes, judgeNode]

theorem judge_element (e : Element) (nodes : List Node) :
    judge env depth within tags (.element e :: nodes) =
      (verdictOf (env.elementFault? e (env.context.tagOf tags e)) (tags.after e) >>= fun given =>
        (if e.isHelper then
          judgeReplaced env depth (e.name <|> within) given
            ((env.context.inner e (env.context.tagOf tags e)).getD [])
        else judge env depth (e.name <|> within) given (e.content.getD [])) >>= fun given =>
          judge env depth within given nodes) := by
  simp only [judge_eq, judgeNodes, judgeNode_element, judgeElement, bind_assoc]

end

theorem except_bind_eq_ok {α β : Type} {x : Except CompileError α} {f : α → Except CompileError β} {b : β} :
    x >>= f = .ok b ↔ ∃ a, x = .ok a ∧ f a = .ok b := by
  cases x with
  | error err => simp [bind, Except.bind]
  | ok a => simp [bind, Except.bind]

theorem except_bind_eq_error {α β : Type} {x : Except CompileError α} {f : α → Except CompileError β}
    {err : CompileError} : x >>= f = .error err ↔ x = .error err ∨ ∃ a, x = .ok a ∧ f a = .error err := by
  cases x with
  | error err' => simp [bind, Except.bind]
  | ok a => simp [bind, Except.bind]

theorem verdictOf_eq_ok {fault : Option CompileError} {tags given : Tags} :
    verdictOf fault tags = .ok given ↔ fault = none ∧ given = tags := by
  cases fault with
  | none => simp [verdictOf, eq_comm]
  | some err => simp [verdictOf]

theorem verdictOf_eq_error {fault : Option CompileError} {tags : Tags} {err : CompileError} :
    verdictOf fault tags = .error err ↔ fault = some err := by
  cases fault with
  | none => simp [verdictOf]
  | some err' => simp [verdictOf]

/-- what a verdict finds wrong is wrong with a super call in content or with an element -/
theorem judge_eq_error {env : Surroundings} {P : CompileError → Prop}
    (hcall : ∀ within call err, env.callFault? within call = some err → P err)
    (helement : ∀ e tag err, env.elementFault? e tag = some err → P err) (hdeep : P .expansionTooDeep) {depth : Nat}
    {within : Option String} {tags : Tags} {nodes : List Node} {err : CompileError}
    (h : judge env depth within tags nodes = .error err) : P err := by
  induction depth using Nat.strongRecOn generalizing within tags nodes err with
  | ind depth ihd =>
    induction nodes using nodes_induction generalizing within tags err with
    | nil => simp [judge_nil] at h
    | text value ns ih => exact ih (judge_text env depth within tags value ns ▸ h)
    | comment value multiline ns ih => exact ih (judge_comment env depth within tags value multiline ns ▸ h)
    | superCall call ns ih =>
      rw [judge_superCall, except_bind_eq_error, verdictOf_eq_error] at h
      rcases h with h | ⟨given, -, h⟩
      · exact hcall within call err h
      · exact ih h
    | element e ns ihc ih =>
      simp only [judge_element, except_bind_eq_error, verdictOf_eq_error] at h
      rcases h with h | ⟨given, -, h | ⟨given', -, h⟩⟩
      · exact helement e _ err h
      · split at h
        · cases depth with
          | zero =>
            cases h
            exact hdeep
          | succ depth => exact ihd depth (Nat.lt_succ_self depth) h
        · exact ihc h
      · exact ih h

/-- an element that is judged to be in order has children that are -/
theorem judge_element_eq_ok {env : Surroundings} {depth : Nat} {within : Option String} {tags given : Tags} {e : Element}
    {nodes : List Node} (h : judge env depth within tags (.element e :: nodes) = .ok given) :
    env.elementFault? e (env.context.tagOf tags e) = none ∧ ∃ depth' between,
      judge env depth' (e.name <|> within) (tags.after e)
        ((env.context.inner e (env.context.tagOf tags e)).getD []) = .ok between ∧
      judge env depth within between nodes = .ok given := by
  simp only [judge_element, except_bind_eq_ok, verdictOf_eq_ok] at h
  obtain ⟨_, ⟨hfault, rfl⟩, between, hchildren, hrest⟩ := h
  refine ⟨hfault, ?_⟩
  cases hh : e.isHelper with
  | true =>
    simp only [hh, if_true] at hchildren
    cases depth with
    | zero => cases hchildren
    | succ depth => exact ⟨depth, between, hchildren, hrest⟩
  | false =>
    simp only [hh, Bool.false_eq_true, if_false] at hchildren
    refine ⟨depth, between, ?_, hrest⟩
    simpa [Context.inner, hh] using hchildren

/-! ## Walks and verdicts -/

/-- the walk, begun with the record `r`, does what the verdict says; what it succeeds with satisfies `Q` -/
def Answers {α : Type} (Q : α → Prop) (w : Walk α) (r : Record) : Verdict → Prop
  | .error err => ∃ r', Fails w r err r'
  | .ok tags => ∃ a r', Runs w r a r' ∧ r'.tagNames = tags ∧ Q a

namespace Answers

variable {α β : Type} {Q : α → Prop} {P : β → Prop} {r : Record}

theorem bind {w : Walk α} {f : α → Walk β} {v : Verdict} {k : Tags → Verdict} (hw : Answers Q w r v)
    (hf : ∀ a r', Q a → v = .ok r'.tagNames → Answers P (f a) r' (k r'.tagNames)) : Answers P (w >>= f) r (v >>= k) := by
  cases v with
  | error err =>
    obtain ⟨r', hw⟩ := hw
    exact ⟨r', fails_bind.2 (.inl hw)⟩
  | ok tags =>
    obtain ⟨a, r₁, hw, rfl, ha⟩ := hw
    have hf := hf a r₁ ha rfl
    change Answers P (w >>= f) r (k r₁.tagNames)
    cases hk : k r₁.tagNames with
    | error err =>
      rw [hk] at hf
      obtain ⟨r', hf⟩ := hf
      exact ⟨r', fails_bind.2 (.inr ⟨a, r₁, hw, hf⟩)⟩
    | ok tags =>
      rw [hk] at hf
      obtain ⟨b, r', hf, htags, hb⟩ := hf
      exact ⟨b, r', runs_bind.2 ⟨a, r₁, hw, hf⟩, htags, hb⟩

/-- behind a step that does what the verdict says, one that adds nothing to it -/
theorem also {w : Walk α} {f : α → Walk β} {v : Verdict} (hw : Answers Q w r v)
    (hf : ∀ a r', Q a → Answers P (f a) r' (.ok r'.tagNames)) : Answers P (w >>= f) r v := by
  have h := Answers.bind (k := .ok) hw fun a r' ha _ => hf a r' ha
  cases v with
  | error err => exact h
  | ok tags => exact h

/-- before a step that does what the verdict says, one that cannot fail -/
theorem step {w : Walk α} {f : α → Walk β} {tags : Tags} {v : Verdict} (hw : Answers Q w r (.ok tags))
    (hf : ∀ a r', Q a → r'.tagNames = tags → Answers P (f a) r' v) : Answers P (w >>= f) r v := by
  refine Answers.bind (k := fun _ => v) hw fun a r' ha htags => ?_
  exact hf a r' ha (Except.ok.inj htags).symm

theorem pure {a : α} {tags : Tags} (ha : Q a) (htags : r.tagNames = tags) : Answers Q (Pure.pure a) r (.ok tags) :=
  ⟨a, r, runs_pure.2 ⟨rfl, rfl⟩, htags, ha⟩

theorem throw (err : CompileError) : Answers Q (MonadExcept.throw err : Walk α) r (.error err) :=
  ⟨r, fails_throw.2 ⟨rfl, rfl⟩⟩

theorem modify {f : Record → Record} {tags : Tags} (htags : (f r).tagNames = tags) :
    Answers (fun _ => True) (modify f : Walk Unit) r (.ok tags) :=
  ⟨(), f r, runs_modify.2 rfl, htags, trivial⟩

theorem get : Answers (· = r) (get : Walk Record) r (.ok r.tagNames) := ⟨r, r, runs_get.2 ⟨rfl, rfl⟩, rfl, rfl⟩

theorem ofExcept {x : Except CompileError α} {fault : Option CompileError}
    (h : match fault with
      | some err => x = .error err
      | none => ∃ a, x = .ok a) :
    Answers (fun _ => True) (MonadExcept.ofExcept x) r (verdictOf fault r.tagNames) := by
  cases fault with
  | some err => exact ⟨r, fails_ofExcept.2 ⟨h, rfl⟩⟩
  | none =>
    obtain ⟨a, h⟩ := h
    exact ⟨a, r, runs_ofExcept.2 ⟨h, rfl⟩, rfl, trivial⟩

end Answers

/-! ## One element -/

section

variable {env : Surroundings} {e : Element} {r : Record}

theorem answers_noteTag (name tag : String) (r : Record) :
    Answers (fun _ => True) (noteTag name tag) r (.ok (Tags.note name tag r.tagNames)) := by
  refine .modify ?_
  unfold Tags.note
  split
  · rfl
  · rfl

theorem answers_define (name : String) (body : Body) (r : Record) :
    Answers (fun _ => True) (define name body) r (.ok r.tagNames) := by
  unfold define
  refine .step .get fun a r₁ _ hr₁ => ?_
  split
  · exact .step (.modify rfl) fun _ r₂ _ hr₂ => .modify (hr₂.trans hr₁)
  · exact .modify hr₁

theorem answers_resolveTag (env : Surroundings) (e : Element) (r : Record) :
    Answers (· = env.context.tagOf r.tagNames e) (resolveTag env e) r (.ok (Tags.after r.tagNames e)) := by
  unfold resolveTag Context.tagOf Tags.after
  cases hn : e.name with
  | none => exact .pure rfl rfl
  | some name =>
    cases ht : e.tagName with
    | some tag => exact .also (answers_noteTag name tag r) fun _ _ _ => .pure rfl rfl
    | none =>
      refine .step .get fun a r₁ ha hr₁ => ?_
      subst ha
      exact .pure rfl hr₁

theorem attributeFault?_of_no_superCall (h : e.attributes.bind (·.superCall) = none) : env.attributeFault? e = none := by
  unfold Surroundings.attributeFault?
  rw [h, Option.bind_none]

theorem resolveSlots_of_attributeFault? (env : Surroundings) (e : Element) :
    match env.attributeFault? e with
    | some err => resolveSlots env.ancestors (e.attributes.getD {}) e.name = .error err
    | none => ∃ slots, resolveSlots env.ancestors (e.attributes.getD {}) e.name = .ok slots := by
  unfold resolveSlots inheritedSlots
  cases he : e.attributes with
  | none =>
    rw [attributeFault?_of_no_superCall (by rw [he]; rfl)]
    exact ⟨_, rfl⟩
  | some attributes =>
    unfold Surroundings.attributeFault?
    rw [he, Option.bind_some, Option.getD_some]
    cases attributes.superCall with
    | none => exact ⟨_, rfl⟩
    | some call =>
      simp only [Option.bind_some]
      cases call.elementName <|> e.name with
      | none => rfl
      | some target =>
        cases env.ancestors.isEmpty with
        | true => rfl
        | false => exact ⟨_, rfl⟩

theorem answers_namedSlots {name : String} (hn : e.name = some name) (r : Record) :
    Answers (fun _ => True) (namedSlots env name e.attributes) r (verdictOf (env.attributeFault? e) r.tagNames) := by
  unfold namedSlots
  cases he : e.attributes with
  | none =>
    rw [attributeFault?_of_no_superCall (by rw [he]; rfl)]
    exact .pure trivial rfl
  | some attributes =>
    dsimp only
    split
    · rename_i hempty
      rw [Bool.and_eq_true, Option.isNone_iff_eq_none] at hempty
      rw [attributeFault?_of_no_superCall (by rw [he]; exact hempty.2)]
      exact .pure trivial rfl
    · have hresolve := resolveSlots_of_attributeFault? env e
      rw [he, hn, Option.getD_some] at hresolve
      exact .also (.ofExcept hresolve) fun _ _ _ => .also (.modify rfl) fun _ _ _ => .pure trivial rfl

theorem openingTag_of_classFault? (tag : String) (slots : AttributeSlots) :
    match env.classFault? e with
    | some err => openingTag env tag slots e.classNames = .error err
    | none => ∃ ops, openingTag env tag slots e.classNames = .ok ops := by
  unfold Surroundings.classFault? openingTag
  split
  · rename_i h
    split at h
    · cases h
      rename_i hmissing
      exact if_pos hmissing
    · cases h
  · rename_i h
    split at h
    · cases h
    · rename_i hmissing
      exact ⟨_, if_neg hmissing⟩

theorem answers_namedOps (name : String) (tag : Option String) (slots : AttributeSlots) (r : Record) :
    Answers (fun _ => True) (namedOps env e name tag slots) r
      (verdictOf (if e.isHelper then none else env.classFault? e) r.tagNames) := by
  unfold namedOps
  cases e.isHelper with
  | true => exact .pure trivial rfl
  | false =>
    simp only [Bool.false_eq_true, if_false]
    refine .step (.modify rfl) fun _ r₁ _ hr₁ => ?_
    rw [← hr₁]
    refine .also (.ofExcept (openingTag_of_classFault? _ _)) fun opening r₂ _ => ?_
    split
    · exact .pure trivial rfl
    · exact .pure trivial rfl
    · exact .pure trivial rfl

theorem answers_expansion (tag : Option String) (hh : e.isHelper = true) (r : Record) :
    Answers (fun nodes => env.context.inner e tag = some nodes) (expansion env e tag) r
      (verdictOf (env.helperFault? tag) r.tagNames) := by
  unfold expansion Surroundings.helperFault?
  cases tag with
  | none => exact .throw _
  | some name =>
    dsimp only
    cases hfind : env.helpers.find? name with
    | none => exact .throw _
    | some helper =>
      refine .also (.modify rfl) fun _ _ _ => .pure ?_ rfl
      simp [Context.inner, hh, Surroundings.context, hfind]

end

/-- a step of a walk does what the verdict says in every scope, whose name it keeps -/
def Judges (f : Scope → Walk Scope) (verdict : Option String → Tags → Verdict) : Prop :=
  ∀ scope r, Answers (·.name = scope.name) (f scope) r (verdict scope.name r.tagNames)

theorem Judges.cons {f g : Scope → Walk Scope} {v k : Option String → Tags → Verdict} (hf : Judges f v)
    (hg : Judges g k) : Judges (fun scope => f scope >>= g) fun within tags => v within tags >>= k within := by
  intro scope r
  refine .bind (hf scope r) fun scope₁ r₁ hname _ => ?_
  rw [← hname]
  exact hg scope₁ r₁

/-- the verdict on the children of an element, where its own attributes and class tokens are in order -/
def judgeChildren (env : Surroundings) (expand : Option String → Tags → List Node → Verdict) (e : Element)
    (content : Option String → Tags → Verdict) (tag within : Option String) (tags : Tags) : Verdict := do
  let given ← verdictOf (if e.isHelper then env.helperFault? tag else none) tags
  if e.isHelper then expand within given ((env.context.inner e tag).getD []) else content within given

/-- the checks of an element one after the other -/
theorem judgeElement_eq (env : Surroundings) (expand : Option String → Tags → List Node → Verdict) (e : Element)
    (content : Option String → Tags → Verdict) (within : Option String) (tags : Tags) :
    judgeElement env expand e content within tags = (do
      let given ← verdictOf (if e.isHelper && e.name.isNone then none else env.attributeFault? e) (tags.after e)
      let given ← verdictOf (if e.isHelper then none else env.classFault? e) given
      judgeChildren env expand e content (env.context.tagOf tags e) (e.name <|> within) given) := by
  unfold judgeElement judgeChildren Surroundings.elementFault?
  cases e.isHelper with
  | true =>
    cases e.name with
    | none => rfl
    | some name =>
      cases env.attributeFault? e with
      | none => rfl
      | some err => rfl
  | false =>
    cases env.attributeFault? e with
    | some err => rfl
    | none =>
      cases env.classFault? e with
      | none => rfl
      | some err => rfl

section

variable {expand : Scope → List Node → Walk Scope} {content : Scope → Walk Scope}
  {ve : Option String → Tags → List Node → Verdict} {vc : Option String → Tags → Verdict}
  (hcontent : Judges content vc) (hexpand : ∀ nodes, Judges (expand · nodes) (ve · · nodes))
include hcontent hexpand

theorem judges_childrenOf (env : Surroundings) (e : Element) (tag : Option String) :
    Judges (childrenOf env expand e content tag) (judgeChildren env ve e vc tag) := by
  intro scope r
  unfold childrenOf judgeChildren
  cases hh : e.isHelper with
  | false => exact hcontent scope r
  | true =>
    refine .bind (answers_expansion tag hh r) fun nodes r₁ hnodes _ => ?_
    rw [hnodes]
    exact hexpand nodes scope r₁

theorem judges_compileElement (env : Surroundings) (e : Element) :
    Judges (compileElement env expand e content) (judgeElement env ve e vc) := by
  intro scope r
  rw [compileElement_eq, judgeElement_eq]
  refine .step (answers_resolveTag env e r) fun tag r₁ htag hr₁ => ?_
  rw [← hr₁, ← htag]
  cases hn : e.name with
  | some name =>
    simp only [Option.isNone_some, Bool.and_false, Bool.false_eq_true, if_false]
    refine .bind (answers_namedSlots hn r₁) fun slots r₂ _ _ => ?_
    refine .bind (answers_namedOps name tag slots r₂) fun render r₃ _ _ => ?_
    refine .also (judges_childrenOf hcontent hexpand env e tag ⟨some name, {}⟩ r₃) fun inner r₄ _ => ?_
    exact .step (answers_define name _ r₄) fun _ _ _ hr₅ => .pure rfl hr₅
  | none =>
    unfold anonymousElement
    cases hh : e.isHelper with
    | true => exact judges_childrenOf hcontent hexpand env e tag scope r₁
    | false =>
      simp only [Bool.false_and, Bool.false_eq_true, if_false]
      have hresolve := resolveSlots_of_attributeFault? env e
      rw [hn] at hresolve
      refine .bind (.ofExcept hresolve) fun slots r₂ _ _ => ?_
      refine .bind (.ofExcept (openingTag_of_classFault? _ _)) fun opening r₃ _ _ => ?_
      refine .also (judges_childrenOf hcontent hexpand env e tag (scope.pushAll opening) r₃) fun inner r₄ hname => ?_
      refine .pure ?_ rfl
      split
      · exact hname
      · exact hname

end

/-! ## All nodes -/

theorem judges_compileSuperCall (env : Surroundings) (call : SuperCall) :
    Judges (compileSuperCall env call) fun within tags => verdictOf (env.callFault? within call) tags := by
  intro scope r
  unfold compileSuperCall Surroundings.callFault?
  dsimp only
  cases call.elementName <|> scope.name with
  | none => exact .throw _
  | some target =>
    dsimp only
    split
    · exact .throw _
    · split
      · exact .throw _
      · exact .pure rfl rfl

theorem judges_compileNodes {env : Surroundings} {expand : Scope → List Node → Walk Scope}
    {ve : Option String → Tags → List Node → Verdict} (hexpand : ∀ nodes, Judges (expand · nodes) (ve · · nodes))
    (nodes : List Node) : Judges (compileNodes env expand · nodes) (judgeNodes env ve · · nodes) := by
  induction nodes using nodes_induction with
  | nil =>
    intro scope r
    simp only [compileNodes, judgeNodes]
    exact .pure rfl rfl
  | text value ns ih =>
    have htext : Judges (compileNode env expand · (.text value)) (judgeNode env ve · · (.text value)) := by
      intro scope r
      simp only [compileNode, judgeNode]
      exact .pure rfl rfl
    simpa only [compileNodes, judgeNodes] using htext.cons ih
  | comment value multiline ns ih =>
    have hcomment : Judges (compileNode env expand · (.comment value multiline))
        (judgeNode env ve · · (.comment value multiline)) := by
      intro scope r
      simp only [compileNode, judgeNode]
      exact .pure rfl rfl
    simpa only [compileNodes, judgeNodes] using hcomment.cons ih
  | superCall call ns ih =>
    simpa only [compileNodes, compileNode, judgeNodes, judgeNode] using (judges_compileSuperCall env call).cons ih
  | element e ns ihc ih =>
    have helement := judges_compileElement ihc hexpand env e
    simpa only [compileNodes, compileNode_element, judgeNodes, judgeNode_element] using helement.cons ih

/-- a walk does what its verdict says -/
theorem walk_judged (env : Surroundings) (depth : Nat) (nodes : List Node) :
    Judges (walk env depth · nodes) (judge env depth · · nodes) := by
  induction depth generalizing nodes with
  | zero => exact judges_compileNodes (fun _ _ _ => .throw _) nodes
  | succ depth ih => exact judges_compileNodes ih nodes

/-! ## Documents -/

/-- the verdict on a document on top of the given levels -/
def Document.verdict (d : Document) (ancestors : List Level) : Verdict :=
  judge (d.surroundings ancestors) (nodesHeight d.block.content + d.options.expansionLimit) none [] d.block.content

section

variable {d : Document} {parent : Option Template} {err : CompileError}

/-- a document is drafted exactly if the verdict finds nothing wrong, and fails with the first thing that is -/
theorem draft_verdict (d : Document) (parent : Option Template) :
    match d.verdict (levelsOf parent) with
    | .error err => draft d parent = .error err
    | .ok tags => ∃ t, draft d parent = .ok t ∧ t.leaf.tagNames = tags := by
  have hjudged := walk_judged (d.surroundings (levelsOf parent))
    (nodesHeight d.block.content + d.options.expansionLimit) d.block.content {} (d.start (levelsOf parent))
  change Answers _ (d.walk (levelsOf parent)) (d.start (levelsOf parent)) (d.verdict (levelsOf parent)) at hjudged
  unfold draft
  dsimp only
  cases hv : d.verdict (levelsOf parent) with
  | error err =>
    rw [hv] at hjudged
    obtain ⟨r', hfails⟩ := hjudged
    rw [hfails]
  | ok tags =>
    rw [hv] at hjudged
    obtain ⟨top, r', hruns, htags, -⟩ := hjudged
    rw [hruns]
    exact ⟨_, rfl, htags⟩

theorem verdict_of_draft {t : Template} (h : draft d parent = .ok t) :
    ∃ tags, d.verdict (levelsOf parent) = .ok tags := by
  have hverdict := draft_verdict d parent
  cases hv : d.verdict (levelsOf parent) with
  | error err =>
    rw [hv] at hverdict
    simp [hverdict] at h
  | ok tags => exact ⟨tags, rfl⟩

theorem draft_eq_error_iff : draft d parent = .error err ↔ d.verdict (levelsOf parent) = .error err := by
  have hverdict := draft_verdict d parent
  cases hv : d.verdict (levelsOf parent) with
  | error err' =>
    rw [hv] at hverdict
    rw [hverdict, Except.error.injEq, Except.error.injEq]
  | ok tags =>
    rw [hv] at hverdict
    obtain ⟨t, ht, -⟩ := hverdict
    rw [ht]
    simp

/-- a document fails with the first thing that is wrong, or else with an element that contains itself -/
theorem compile_eq_error_iff :
    (compile d.block parent d.options).result = .error err ↔
      d.verdict (levelsOf parent) = .error err ∨
        ∃ t name, draft d parent = .ok t ∧ t.recursiveElement? = some name ∧ err = .recursiveElement name := by
  rw [compile_result, ← draft_eq_error_iff]
  cases draft d parent with
  | error err' => simp [Except.bind]
  | ok t =>
    simp only [Except.bind, check_eq_error, reduceCtorEq, false_or, Except.ok.injEq]
    constructor
    · rintro ⟨name, hrecursive, herr⟩
      exact ⟨t, name, rfl, hrecursive, herr⟩
    · rintro ⟨_, name, rfl, hrecursive, herr⟩
      exact ⟨name, hrecursive, herr⟩

end

/-! ## Elements in order -/

/-- where nothing is wrong with content, nothing is wrong with the elements that it reads as -/
theorem Reads.elementFault?_eq_none {env : Surroundings} {within : Option String} {tags tags' given : Tags}
    {nodes : List Node} {ps : Parts} (h : Reads env.context within tags nodes tags' ps) {depth : Nat}
    (hv : judge env depth within tags nodes = .ok given) :
    given = tags' ∧ ∀ p ∈ ps.occurrences, env.elementFault? p.2.element p.2.tag = none := by
  induction h generalizing depth given with
  | done =>
    rw [judge_nil] at hv
    exact ⟨(Except.ok.inj hv).symm, by simp [Parts.occurrences]⟩
  | text value _ ih =>
    rw [judge_text] at hv
    exact ih hv
  | comment value multiline _ ih =>
    rw [judge_comment] at hv
    exact ih hv
  | superCall _ _ ih =>
    rw [judge_superCall, except_bind_eq_ok] at hv
    obtain ⟨_, hcall, hv⟩ := hv
    rw [(verdictOf_eq_ok.1 hcall).2] at hv
    exact ih hv
  | @named within tags nodes tags₁ tags₂ children ps e name inner hn hi _ _ ihc ih =>
    obtain ⟨hfault, depth', between, hchildren, hrest⟩ := judge_element_eq_ok hv
    rw [hi, hn] at hchildren
    obtain ⟨rfl, hoccurrences⟩ := ihc hchildren
    obtain ⟨rfl, hoccurrences'⟩ := ih hrest
    exact ⟨rfl, List.forall_mem_cons.2 ⟨hfault, List.forall_mem_append.2 ⟨hoccurrences, hoccurrences'⟩⟩⟩
  | @anonymous within tags nodes tags₁ tags₂ children ps e hn hh _ _ ihc ih =>
    obtain ⟨hfault, depth', between, hchildren, hrest⟩ := judge_element_eq_ok hv
    have htag : env.context.tagOf tags e = e.tagName := by simp [Context.tagOf, hn]
    have hinner : env.context.inner e e.tagName = some (e.content.getD []) := by simp [Context.inner, hh]
    rw [htag] at hfault hchildren
    rw [hinner, hn, Tags.after_of_anonymous hn] at hchildren
    obtain ⟨rfl, hoccurrences⟩ := ihc hchildren
    obtain ⟨rfl, hoccurrences'⟩ := ih hrest
    exact ⟨rfl, List.forall_mem_cons.2 ⟨hfault, List.forall_mem_append.2 ⟨hoccurrences, hoccurrences'⟩⟩⟩
  | @spliced within tags nodes tags₁ tags₂ children ps e inner hn hh hi _ _ ihc ih =>
    obtain ⟨-, depth', between, hchildren, hrest⟩ := judge_element_eq_ok hv
    have htag : env.context.tagOf tags e = e.tagName := by simp [Context.tagOf, hn]
    rw [htag, hi, hn, Tags.after_of_anonymous hn] at hchildren
    obtain ⟨rfl, hoccurrences⟩ := ihc hchildren
    obtain ⟨rfl, hoccurrences'⟩ := ih hrest
    rw [Parts.occurrences_append]
    exact ⟨rfl, List.forall_mem_append.2 ⟨hoccurrences, hoccurrences'⟩⟩

end BlockTemplates
