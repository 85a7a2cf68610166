/-
What the walk over a document does, in terms of how the document reads. A walk that succeeds has read its nodes as some
parts: it has added the operations of these parts to its scope, and their definitions, attributes and tags to its record.
Everything else that is known about compiled levels comes from this.

Main statement: `walk_reads`.
-/
import BlockTemplates.Proofs.Reading.Parts

namespace BlockTemplates

open Html Markup Render

/-! ## The operations of parts -/

namespace Occurrence

def openingOps (o : Occurrence) : List Op :=
  .literal ("<" ++ o.tagName) :: (attributeOps (o.slots.getD {}) o.element.classNames ++ [.literal ">"])

def closingOps (o : Occurrence) : List Op :=
  if o.element.content.isSome || !isSelfClosing o.tagName then [closingTag o.tagName] else []

/-- the operations around the content of a named element; there is nothing to invoke where no content is written -/
def renderOps (name : String) (o : Occurrence) : List Op :=
  if o.element.isHelper then [.invokeContent name]
  else o.openingOps ++ (if (o.element.content.getD []).isEmpty then [] else [.invokeContent name]) ++ o.closingOps

end Occurrence

namespace Parts

def ops : Parts → List Op
  | .done => []
  | .text value rest => .literal (escapeText value) :: rest.ops
  | .anonymous o children rest => o.openingOps ++ children.ops ++ o.closingOps ++ rest.ops
  | .named name _ _ rest => .invokeElement name :: rest.ops
  | .superCall target rest => .superContent target :: rest.ops

/-- the targets of the super calls, at any depth -/
def superTargets : Parts → List String
  | .done => []
  | .text _ rest => rest.superTargets
  | .anonymous _ children rest | .named _ _ children rest => children.superTargets ++ rest.superTargets
  | .superCall target rest => target :: rest.superTargets

end Parts

def Definition.body (name : String) (d : Definition) : Body where
  render := (Buffer.ofList (d.occurrence.renderOps name)).toList
  content := (Buffer.ofList d.children.ops).toList

/-- the bodies that parts define, in the order in which they are complete -/
def Parts.bodies (ps : Parts) : List (String × Body) := ps.definitions.map fun p => (p.1, p.2.body p.1)

namespace Parts

theorem append_assoc (ps qs us : Parts) : (ps.append qs).append us = ps.append (qs.append us) := by
  induction ps with
  | done => rfl
  | text value rest ih => simp only [append, ih]
  | anonymous o children rest _ ih => simp only [append, ih]
  | named name o children rest _ ih => simp only [append, ih]
  | superCall target rest ih => simp only [append, ih]

theorem append_done (ps : Parts) : ps.append .done = ps := by
  induction ps with
  | done => rfl
  | text value rest ih => simp only [append, ih]
  | anonymous o children rest _ ih => simp only [append, ih]
  | named name o children rest _ ih => simp only [append, ih]
  | superCall target rest ih => simp only [append, ih]

theorem ops_append (ps qs : Parts) : (ps.append qs).ops = ps.ops ++ qs.ops := by
  induction ps with
  | done => rfl
  | text value rest ih => simp [append, ops, ih]
  | anonymous o children rest _ ih => simp [append, ops, ih]
  | named name o children rest _ ih => simp [append, ops, ih]
  | superCall target rest ih => simp [append, ops, ih]

theorem superTargets_append (ps qs : Parts) : (ps.append qs).superTargets = ps.superTargets ++ qs.superTargets := by
  induction ps with
  | done => rfl
  | text value rest ih => exact ih
  | anonymous o children rest _ ih => simp [append, superTargets, ih]
  | named name o children rest _ ih => simp [append, superTargets, ih]
  | superCall target rest ih => simp [append, superTargets, ih]

theorem bodies_append (ps qs : Parts) : (ps.append qs).bodies = ps.bodies ++ qs.bodies := by
  simp [bodies, definitions_append]

end Parts

theorem Reads.append {ctx : Context} {within : Option String} {tags tags₁ tags₂ : Tags} {nodes nodes' : List Node}
    {ps qs : Parts} (h : Reads ctx within tags nodes tags₁ ps) (h' : Reads ctx within tags₁ nodes' tags₂ qs) :
    Reads ctx within tags (nodes ++ nodes') tags₂ (ps.append qs) := by
  induction h with
  | done => exact h'
  | text value _ ih => exact .text value (ih h')
  | comment value multiline _ ih => exact .comment value multiline (ih h')
  | superCall ht _ ih => exact .superCall ht (ih h')
  | named hn hi hc _ _ ih => exact .named hn hi hc (ih h')
  | anonymous hn hh hc _ _ ih => exact .anonymous hn hh hc (ih h')
  | spliced hn hh hi hc _ _ ih =>
    rw [Parts.append_assoc]
    exact .spliced hn hh hi hc (ih h')

/-! ## Walks that succeed -/

/-- the walk, begun with the record `r`, succeeds with `a` and leaves the record `r'` -/
def Runs {α : Type} (w : Walk α) (r : Record) (a : α) (r' : Record) : Prop := (w.run.run r).run = (.ok a, r')

section

variable {α β : Type} {r r' : Record}

theorem runs_bind {w : Walk α} {f : α → Walk β} {b : β} :
    Runs (w >>= f) r b r' ↔ ∃ a r₁, Runs w r a r₁ ∧ Runs (f a) r₁ b r' := by
  simp only [Runs, ExceptT.run_bind, StateT.run_bind, Id.run_bind]
  rcases (w.run.run r).run with ⟨e | a, r₁⟩
  · simp
  · simp only [Prod.mk.injEq, Except.ok.injEq]
    exact ⟨fun h => ⟨a, r₁, ⟨rfl, rfl⟩, h⟩, fun ⟨_, _, ⟨ha, hr⟩, h⟩ => ha ▸ hr ▸ h⟩

theorem runs_pure {a b : α} : Runs (pure a) r b r' ↔ b = a ∧ r' = r := by simp [Runs, eq_comm]

theorem not_runs_throw {e : CompileError} {a : α} : ¬ Runs (throw e) r a r' := by simp [Runs]

theorem runs_ofExcept {x : Except CompileError α} {a : α} :
    Runs (MonadExcept.ofExcept x) r a r' ↔ x = .ok a ∧ r' = r := by
  cases x with
  | error e => simpa [MonadExcept.ofExcept] using not_runs_throw
  | ok b => simp [MonadExcept.ofExcept, runs_pure, eq_comm]

theorem runs_modify {f : Record → Record} {u : Unit} : Runs (modify f) r u r' ↔ r' = f r :=
  ⟨fun h => (Prod.mk.inj h).2.symm, fun h => h ▸ rfl⟩

theorem runs_get {s : Record} : Runs get r s r' ↔ s = r ∧ r' = r := by
  constructor
  · intro h
    exact ⟨(Except.ok.inj (Prod.mk.inj h).1).symm, (Prod.mk.inj h).2.symm⟩
  · rintro ⟨rfl, rfl⟩
    rfl

end

/-- what a walk adds to a record -/
structure Grown (r r' : Record) (tags : Tags) (bodies : List (String × Body)) (slots : List (String × AttributeSlots)) :
    Prop where
  tagNames : r'.tagNames = tags
  elements : r'.elements = bodies.reverse ++ r.elements
  attributeLists : r'.attributeLists = slots.reverse ++ r.attributeLists

theorem Grown.refl (r : Record) : Grown r r r.tagNames [] [] := ⟨rfl, rfl, rfl⟩

theorem Grown.trans {r r₁ r₂ : Record} {tags tags' : Tags} {bodies bodies' : List (String × Body)}
    {slots slots' : List (String × AttributeSlots)} (h : Grown r r₁ tags bodies slots)
    (h' : Grown r₁ r₂ tags' bodies' slots') : Grown r r₂ tags' (bodies ++ bodies') (slots ++ slots') :=
  ⟨h'.tagNames, by rw [h'.elements, h.elements]; simp, by rw [h'.attributeLists, h.attributeLists]; simp⟩

theorem grown_of_report {event : Event} {r r' : Record} {u : Unit} (h : Runs (report event) r u r') :
    Grown r r' r.tagNames [] [] := by
  rw [runs_modify.1 h]
  exact ⟨rfl, rfl, rfl⟩

theorem grown_of_noteSlots {name : String} {slots : AttributeSlots} {r r' : Record} {u : Unit}
    (h : Runs (noteSlots name slots) r u r') : Grown r r' r.tagNames [] [(name, slots)] := by
  rw [runs_modify.1 h]
  exact ⟨rfl, rfl, rfl⟩

theorem grown_of_define {name : String} {body : Body} {r r' : Record} {u : Unit} (h : Runs (define name body) r u r') :
    Grown r r' r.tagNames [(name, body)] [] := by
  simp only [define, runs_bind, runs_get] at h
  obtain ⟨_, _, ⟨rfl, rfl⟩, h⟩ := h
  split at h
  · rw [runs_bind] at h
    obtain ⟨_, r₂, hreport, h⟩ := h
    rw [runs_modify.1 h, runs_modify.1 hreport]
    exact ⟨rfl, rfl, rfl⟩
  · rw [runs_modify.1 h]
    exact ⟨rfl, rfl, rfl⟩

/-! ## One element -/

/-- what the document of a walk is read with -/
def Surroundings.context (env : Surroundings) : Context where
  helpers := env.helpers
  tag? name := findTag name env.ancestors
  slots? name := findSlots name env.ancestors

theorem runs_resolveTag {env : Surroundings} {e : Element} {r r' : Record} {tag : Option String}
    (h : Runs (resolveTag env e) r tag r') :
    tag = env.context.tagOf r.tagNames e ∧ Grown r r' (Tags.after r.tagNames e) [] [] := by
  unfold resolveTag at h
  unfold Context.tagOf Tags.after
  cases hn : e.name with
  | none =>
    simp only [hn, runs_pure] at h
    obtain ⟨rfl, rfl⟩ := h
    exact ⟨rfl, .refl _⟩
  | some name =>
    cases ht : e.tagName with
    | some t =>
      simp only [hn, ht, runs_bind, runs_pure] at h
      obtain ⟨_, r₁, hnote, rfl, rfl⟩ := h
      rw [runs_modify.1 hnote]
      refine ⟨rfl, ?_⟩
      simp only [Tags.note]
      split
      · exact ⟨rfl, rfl, rfl⟩
      · exact ⟨rfl, rfl, rfl⟩
    | none =>
      simp only [hn, ht, runs_bind, runs_get, runs_pure] at h
      obtain ⟨_, _, ⟨rfl, rfl⟩, rfl, rfl⟩ := h
      exact ⟨rfl, .refl _⟩

/-- attributes resolve to those that reading makes out -/
theorem slotsOf_of_resolveSlots {env : Surroundings} {e : Element} {attributes : Attributes} {slots : AttributeSlots}
    (he : e.attributes = some attributes) (h : resolveSlots env.ancestors attributes e.name = .ok slots) :
    slots = (env.context.slotsOf e).getD {} ∧
      (¬ (attributes.list = [] ∧ attributes.superCall = none) → env.context.slotsOf e = some slots) := by
  obtain ⟨call, list⟩ := attributes
  unfold resolveSlots inheritedSlots at h
  unfold Context.slotsOf
  cases call with
  | none =>
    simp only [Except.map, Except.ok.injEq] at h
    cases list with
    | nil => simp [he, ← h, AttributeSlots.setAll]
    | cons a as => simp [he, h]
  | some call =>
    have hsome : (((call.elementName <|> e.name).bind env.context.slots?).getD {}).setAll list = slots := by
      dsimp only at h
      cases htarget : call.elementName <|> e.name with
      | none => simp [htarget, Except.map] at h
      | some target =>
        simp only [htarget] at h
        split at h
        · simp [Except.map] at h
        · simpa [Except.map, Surroundings.context] using h
    simp only [he]
    exact ⟨hsome.symm, fun _ => congrArg some hsome⟩

theorem runs_namedSlots {env : Surroundings} {e : Element} {name : String} {r r' : Record} {slots : AttributeSlots}
    (hn : e.name = some name) (h : Runs (namedSlots env name e.attributes) r slots r') :
    slots = (env.context.slotsOf e).getD {} ∧
      Grown r r' r.tagNames [] ((env.context.slotsOf e).map (name, ·)).toList := by
  unfold namedSlots at h
  cases ha : e.attributes with
  | none =>
    simp only [ha, runs_pure] at h
    obtain ⟨rfl, rfl⟩ := h
    have hs : env.context.slotsOf e = none := by simp [Context.slotsOf, ha]
    rw [hs]
    exact ⟨rfl, .refl _⟩
  | some attributes =>
    simp only [ha] at h
    split at h
    · rename_i hempty
      rw [runs_pure] at h
      obtain ⟨rfl, rfl⟩ := h
      have hs : env.context.slotsOf e = none := by
        obtain ⟨call, list⟩ := attributes
        simp only [Bool.and_eq_true, List.isEmpty_iff, Option.isNone_iff_eq_none] at hempty
        simp [Context.slotsOf, ha, hempty]
      rw [hs]
      exact ⟨rfl, .refl _⟩
    · rename_i hfull
      simp only [runs_bind, runs_ofExcept, runs_pure] at h
      obtain ⟨_, _, ⟨hresolve, rfl⟩, _, _, hnote, rfl, rfl⟩ := h
      obtain ⟨hs, hsome⟩ := slotsOf_of_resolveSlots ha (hn ▸ hresolve)
      refine ⟨hs, ?_⟩
      rw [hsome (by simpa using hfull)]
      exact grown_of_noteSlots hnote

theorem openingOps_of_openingTag {env : Surroundings} {o : Occurrence} {ops : List Op}
    (h : openingTag env o.tagName (o.slots.getD {}) o.element.classNames = .ok ops) : ops = o.openingOps := by
  unfold openingTag at h
  split at h
  · simp at h
  · exact (Except.ok.inj h).symm

theorem runs_namedOps {env : Surroundings} {e : Element} {name : String} {tag : Option String}
    {slots : Option AttributeSlots} {r r' : Record} {ops : List Op}
    (h : Runs (namedOps env e name tag (slots.getD {})) r ops r') :
    ops = Occurrence.renderOps name ⟨e, tag, slots⟩ ∧ Grown r r' r.tagNames [] [] := by
  unfold namedOps at h
  unfold Occurrence.renderOps
  cases hh : e.isHelper with
  | true =>
    simp only [hh, if_true, runs_pure] at h ⊢
    obtain ⟨rfl, rfl⟩ := h
    exact ⟨rfl, .refl _⟩
  | false =>
    simp only [hh, Bool.false_eq_true, if_false, runs_bind, runs_ofExcept] at h ⊢
    obtain ⟨_, r₁, hreport, opening, _, ⟨hopen, rfl⟩, h⟩ := h
    have hg := grown_of_report hreport
    obtain rfl := openingOps_of_openingTag (o := ⟨e, tag, slots⟩) hopen
    unfold Occurrence.closingOps Occurrence.tagName
    cases hc : e.content with
    | some content =>
      cases content with
      | cons n ns =>
        simp only [hc, runs_pure] at h
        obtain ⟨rfl, rfl⟩ := h
        exact ⟨by simp, hg⟩
      | nil =>
        simp only [hc, runs_pure] at h
        obtain ⟨rfl, rfl⟩ := h
        exact ⟨by simp, hg⟩
    | none =>
      simp only [hc, runs_pure] at h
      obtain ⟨rfl, rfl⟩ := h
      refine ⟨?_, hg⟩
      cases isSelfClosing (tag.getD defaultTag) <;> simp

/-! ## Scopes -/

theorem Render.Buffer.pushAll_append (b : Buffer) (ops ops' : List Op) :
    b.pushAll (ops ++ ops') = (b.pushAll ops).pushAll ops' := by
  simp [Buffer.pushAll, List.foldl_append]

@[simp] theorem Scope.pushAll_name (s : Scope) (ops : List Op) : (s.pushAll ops).name = s.name := rfl

theorem Scope.pushAll_append (s : Scope) (ops ops' : List Op) :
    s.pushAll (ops ++ ops') = (s.pushAll ops).pushAll ops' := by
  simp only [Scope.pushAll, Buffer.pushAll_append]

theorem Scope.pushAll_closingOps (o : Occurrence) (s : Scope) :
    (if o.element.content.isSome || !isSelfClosing o.tagName then s.pushAll [closingTag o.tagName] else s) =
      s.pushAll o.closingOps := by
  unfold Occurrence.closingOps
  split
  · rfl
  · rfl

/-! ## The walk reads -/

/-- what is known when a walk from the scope and the record has read nodes -/
structure HasRead (env : Surroundings) (scope : Scope) (r : Record) (nodes : List Node) (scope' : Scope) (r' : Record)
    (ps : Parts) : Prop where
  reads : Reads env.context scope.name r.tagNames nodes r'.tagNames ps
  scope : scope' = scope.pushAll ps.ops
  grown : Grown r r' r'.tagNames ps.bodies ps.slotLists
  targets : ∀ target ∈ ps.superTargets, (findBody target env.ancestors).isSome

theorem HasRead.nil (env : Surroundings) (scope : Scope) (r : Record) : HasRead env scope r [] scope r .done :=
  ⟨.done, rfl, .refl r, by simp [Parts.superTargets]⟩

theorem HasRead.append {env : Surroundings} {scope scope₁ scope₂ : Scope} {r r₁ r₂ : Record} {nodes nodes' : List Node}
    {ps qs : Parts} (h : HasRead env scope r nodes scope₁ r₁ ps) (h' : HasRead env scope₁ r₁ nodes' scope₂ r₂ qs) :
    HasRead env scope r (nodes ++ nodes') scope₂ r₂ (ps.append qs) := by
  obtain ⟨hr, rfl, hg, ht⟩ := h
  obtain ⟨hr', rfl, hg', ht'⟩ := h'
  refine ⟨hr.append hr', ?_, ?_, ?_⟩
  · rw [Parts.ops_append, Scope.pushAll_append]
  · rw [Parts.bodies_append, Parts.slotLists_append]
    exact hg.trans hg'
  · intro target hm
    rw [Parts.superTargets_append] at hm
    rcases List.mem_append.1 hm with hm | hm
    · exact ht target hm
    · exact ht' target hm

/-- a step of a walk reads `nodes`, whenever it succeeds -/
def ReadsNodes (env : Surroundings) (f : Scope → Walk Scope) (nodes : List Node) : Prop :=
  ∀ ⦃scope r scope' r'⦄, Runs (f scope) r scope' r' → ∃ ps, HasRead env scope r nodes scope' r' ps

theorem ReadsNodes.bind {env : Surroundings} {f g : Scope → Walk Scope} {nodes nodes' : List Node}
    (hf : ReadsNodes env f nodes) (hg : ReadsNodes env g nodes') :
    ReadsNodes env (fun scope => f scope >>= g) (nodes ++ nodes') := by
  intro scope r scope' r' h
  rw [runs_bind] at h
  obtain ⟨scope₁, r₁, h₁, h₂⟩ := h
  obtain ⟨ps, hps⟩ := hf h₁
  obtain ⟨qs, hqs⟩ := hg h₂
  exact ⟨ps.append qs, hps.append hqs⟩

theorem ReadsNodes.cons {env : Surroundings} {f g : Scope → Walk Scope} {n : Node} {ns : List Node}
    (hf : ReadsNodes env f [n]) (hg : ReadsNodes env g ns) : ReadsNodes env (fun scope => f scope >>= g) (n :: ns) :=
  hf.bind hg

/-- the content of an element, or what stands in its place -/
def childrenOf (env : Surroundings) (expand : Scope → List Node → Walk Scope) (e : Element)
    (content : Scope → Walk Scope) (tag : Option String) (inner : Scope) : Walk Scope := do
  if e.isHelper then expand inner (← expansion env e tag) else content inner

theorem compileElement_eq (env : Surroundings) (expand : Scope → List Node → Walk Scope) (e : Element)
    (content : Scope → Walk Scope) (scope : Scope) :
    compileElement env expand e content scope = (do
      let tag ← resolveTag env e
      match e.name with
      | some name => namedElement env e name tag (childrenOf env expand e content tag) scope
      | none => anonymousElement env e tag (childrenOf env expand e content tag) scope) := rfl

section

variable {env : Surroundings} {expand : Scope → List Node → Walk Scope} {e : Element} {content : Scope → Walk Scope}
  (hcontent : ReadsNodes env content (e.content.getD [])) (hexpand : ∀ nodes, ReadsNodes env (expand · nodes) nodes)
include hcontent hexpand

theorem runs_childrenOf {tag : Option String} {scope scope' : Scope} {r r' : Record}
    (h : Runs (childrenOf env expand e content tag scope) r scope' r') :
    ∃ inner ps, env.context.inner e tag = some inner ∧ HasRead env scope r inner scope' r' ps := by
  unfold childrenOf at h
  unfold Context.inner
  cases hh : e.isHelper with
  | false =>
    simp only [hh, Bool.false_eq_true, if_false] at h ⊢
    obtain ⟨ps, hps⟩ := hcontent h
    exact ⟨_, ps, rfl, hps⟩
  | true =>
    simp only [hh, if_true] at h ⊢
    rw [runs_bind] at h
    obtain ⟨nodes, r₁, hexpansion, h⟩ := h
    unfold expansion at hexpansion
    split at hexpansion
    · exact absurd hexpansion not_runs_throw
    · rename_i name
      split at hexpansion
      · exact absurd hexpansion not_runs_throw
      · rename_i helper hfind
        simp only [runs_bind, runs_pure] at hexpansion
        obtain ⟨_, _, hreport, rfl, rfl⟩ := hexpansion
        obtain ⟨ps, hps⟩ := hexpand _ h
        have hg := grown_of_report hreport
        refine ⟨_, ps, by simp [Surroundings.context, hfind], hg.tagNames ▸ hps.reads, hps.scope, ?_, hps.targets⟩
        exact hg.trans hps.grown

/-- a named element: its children go to a scope of their own -/
theorem runs_namedElement {name : String} (hn : e.name = some name) {scope scope' : Scope} {r r₁ r' : Record}
    (hbegun : Grown r r₁ (Tags.after r.tagNames e) [] [])
    (h : Runs (namedElement env e name (env.context.tagOf r.tagNames e)
      (childrenOf env expand e content (env.context.tagOf r.tagNames e)) scope) r₁ scope' r') :
    ∃ ps, HasRead env scope r [.element e] scope' r' ps := by
  simp only [namedElement, runs_bind, runs_pure] at h
  obtain ⟨slots, r₂, hslots, render, r₃, hops, inner, r₄, hchildren, _, r₅, hdefine, rfl, rfl⟩ := h
  obtain ⟨rfl, hg₂⟩ := runs_namedSlots hn hslots
  obtain ⟨rfl, hg₃⟩ := runs_namedOps hops
  obtain ⟨nodes, ps, hi, hps⟩ := runs_childrenOf hcontent hexpand hchildren
  have hg₅ := grown_of_define hdefine
  have hreads := hps.reads
  rw [hg₃.tagNames, hg₂.tagNames, hbegun.tagNames, ← hg₅.tagNames] at hreads
  refine ⟨.named name ⟨e, _, env.context.slotsOf e⟩ ps .done, .named hn hi hreads .done, rfl, ?_, ?_⟩
  · have hg := (((hbegun.trans hg₂).trans hg₃).trans hps.grown).trans (hg₅.tagNames ▸ hg₅)
    simpa [Parts.bodies, Parts.definitions, Parts.slotLists, Definition.body, hps.scope, Scope.pushAll,
      Buffer.ofList] using hg
  · simpa [Parts.superTargets] using hps.targets

theorem runs_anonymousElement (hn : e.name = none) {scope scope' : Scope} {r r' : Record}
    (h : Runs (anonymousElement env e e.tagName (childrenOf env expand e content e.tagName) scope) r scope' r') :
    ∃ ps, HasRead env scope r [.element e] scope' r' ps := by
  unfold anonymousElement at h
  cases hh : e.isHelper with
  | true =>
    simp only [hh, if_true] at h
    obtain ⟨nodes, ps, hi, hps⟩ := runs_childrenOf hcontent hexpand h
    refine ⟨ps, ?_, hps.scope, hps.grown, hps.targets⟩
    rw [← ps.append_done]
    exact .spliced hn hh hi hps.reads .done
  | false =>
    simp only [hh, Bool.false_eq_true, if_false, runs_bind, runs_ofExcept, runs_pure] at h
    obtain ⟨slots, _, ⟨hresolve, rfl⟩, opening, _, ⟨hopen, rfl⟩, inner, _, hchildren, rfl, rfl⟩ := h
    obtain ⟨nodes, ps, hi, hps⟩ := runs_childrenOf hcontent hexpand hchildren
    have hs : slots = (env.context.slotsOf e).getD {} := by
      cases ha : e.attributes with
      | none =>
        simp only [ha, Option.getD_none, resolveSlots, inheritedSlots, Except.map, Except.ok.injEq] at hresolve
        simp [Context.slotsOf, ha, ← hresolve, AttributeSlots.setAll]
      | some attributes => exact (slotsOf_of_resolveSlots ha (by simpa [ha, hn] using hresolve)).1
    subst hs
    rw [openingOps_of_openingTag (o := ⟨e, e.tagName, env.context.slotsOf e⟩) hopen] at hps
    simp only [Context.inner, hh, Bool.false_eq_true, if_false, Option.some.injEq] at hi
    subst hi
    refine ⟨.anonymous ⟨e, e.tagName, env.context.slotsOf e⟩ ps .done, .anonymous hn hh hps.reads .done, ?_, ?_, ?_⟩
    · rw [hps.scope]
      simp only [Parts.ops, List.append_nil, Scope.pushAll_append]
      exact Scope.pushAll_closingOps ⟨e, e.tagName, env.context.slotsOf e⟩ _
    · simpa [Parts.bodies, Parts.definitions, Parts.slotLists] using hps.grown
    · simpa [Parts.superTargets] using hps.targets

theorem readsNodes_element : ReadsNodes env (compileElement env expand e content) [.element e] := by
  intro scope r scope' r' h
  rw [compileElement_eq] at h
  rw [runs_bind] at h
  obtain ⟨tag, r₁, htag, h⟩ := h
  obtain ⟨rfl, hg⟩ := runs_resolveTag htag
  cases hn : e.name with
  | some name =>
    simp only [hn] at h
    exact runs_namedElement hcontent hexpand hn hg h
  | none =>
    simp only [hn] at h
    have htag' : env.context.tagOf r.tagNames e = e.tagName := by simp [Context.tagOf, hn]
    rw [htag'] at h
    obtain ⟨ps, hps⟩ := runs_anonymousElement hcontent hexpand hn h
    have hafter : Tags.after r.tagNames e = r.tagNames := by simp [Tags.after, hn]
    rw [hafter] at hg
    exact ⟨ps, hg.tagNames ▸ hps.reads, hps.scope, by simpa using hg.trans hps.grown, hps.targets⟩

end

/-! ## All nodes -/

theorem compileNode_element (env : Surroundings) (expand : Scope → List Node → Walk Scope) (scope : Scope)
    (e : Element) :
    compileNode env expand scope (.element e) =
      compileElement env expand e (compileNodes env expand · (e.content.getD [])) scope := by
  obtain ⟨helper, tag, names, attributes, content⟩ := e
  cases content with
  | none =>
    simp only [compileNode, Option.getD_none, compileNodes]
  | some content => simp only [compileNode, Option.getD_some]

theorem readsNodes_compileSuperCall (env : Surroundings) (call : SuperCall) :
    ReadsNodes env (compileSuperCall env call) [.superCall call] := by
  intro scope r scope' r' h
  unfold compileSuperCall at h
  cases htarget : call.elementName <|> scope.name with
  | none =>
    simp only [htarget] at h
    exact absurd h not_runs_throw
  | some target =>
    simp only [htarget] at h
    split at h
    · exact absurd h not_runs_throw
    · split at h
      · exact absurd h not_runs_throw
      · rename_i hfound
        rw [runs_pure] at h
        obtain ⟨rfl, rfl⟩ := h
        refine ⟨.superCall target .done, .superCall htarget .done, rfl, .refl _, ?_⟩
        simpa [Parts.superTargets, Option.isSome_iff_ne_none] using hfound

theorem readsNodes_compileNodes {env : Surroundings} {expand : Scope → List Node → Walk Scope}
    (hexpand : ∀ nodes, ReadsNodes env (expand · nodes) nodes) (nodes : List Node) :
    ReadsNodes env (compileNodes env expand · nodes) nodes := by
  induction nodes using nodes_induction with
  | nil =>
    intro scope r scope' r' h
    simp only [compileNodes, runs_pure] at h
    obtain ⟨rfl, rfl⟩ := h
    exact ⟨.done, .nil env _ _⟩
  | text value ns ih =>
    have htext : ReadsNodes env (compileNode env expand · (.text value)) [.text value] := by
      intro scope r scope' r' h
      simp only [compileNode, runs_pure] at h
      obtain ⟨rfl, rfl⟩ := h
      exact ⟨.text value .done, .text value .done, rfl, .refl _, by simp [Parts.superTargets]⟩
    simpa only [compileNodes] using htext.cons ih
  | comment value multiline ns ih =>
    have hcomment : ReadsNodes env (compileNode env expand · (.comment value multiline)) [.comment value multiline] := by
      intro scope r scope' r' h
      simp only [compileNode, runs_pure] at h
      obtain ⟨rfl, rfl⟩ := h
      exact ⟨.done, .comment value multiline .done, rfl, .refl _, by simp [Parts.superTargets]⟩
    simpa only [compileNodes] using hcomment.cons ih
  | superCall call ns ih =>
    have hcall := readsNodes_compileSuperCall env call
    simpa only [compileNodes, compileNode] using hcall.cons ih
  | element e ns ihc ih =>
    have helement := readsNodes_element ihc hexpand
    simpa only [compileNodes, compileNode_element] using helement.cons ih

theorem readsNodes_walk (env : Surroundings) (depth : Nat) (nodes : List Node) :
    ReadsNodes env (walk env depth · nodes) nodes := by
  induction depth generalizing nodes with
  | zero =>
    refine readsNodes_compileNodes (fun _ => ?_) nodes
    intro scope r scope' r' h
    exact absurd h not_runs_throw
  | succ depth ih => exact readsNodes_compileNodes ih nodes

/-- a walk that succeeds has read its nodes as some parts -/
theorem walk_reads {env : Surroundings} {depth : Nat} {scope scope' : Scope} {nodes : List Node} {r r' : Record}
    (h : Runs (walk env depth scope nodes) r scope' r') : ∃ ps, HasRead env scope r nodes scope' r' ps :=
  readsNodes_walk env depth nodes h

end BlockTemplates
