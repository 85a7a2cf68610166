/-
What the check for elements that contain themselves looks at. Of a level it sees which elements the level defines and
what their operations invoke; markup, class tokens, tags and attributes make no difference to it.

Main statements: `follow_outline` and `Template.recursiveElement?_outline` (the check finds the same in the outline),
`Realised.outline` (documents and their blank forms have the same outline).
-/
import BlockTemplates.Proofs.Reading.Blank
import BlockTemplates.Proofs.Rendering.Recursion

namespace BlockTemplates

open Html Markup Render

/-! ## Outlines -/

/-- whether the operation invokes others -/
def Render.Op.isCall : Op → Bool
  | .literal _ | .elementClasses _ => false
  | .invokeElement _ | .invokeContent _ | .superContent _ => true

/-- the operations that invoke others -/
def calls (ops : List Op) : List Op := ops.filter Op.isCall

def Body.outline (b : Body) : Body := ⟨calls b.render, calls b.content⟩

/-- the level with nothing but what its elements invoke -/
def Level.outline (l : Level) : Level where
  blockNames := []
  prefixes := []
  root := calls l.root
  elements := l.elements.map fun p => (p.1, p.2.outline)
  tagNames := []
  attributeLists := []

def Template.outline (t : Template) : Template where
  leaf := t.leaf.outline
  ancestors := t.ancestors.map Level.outline

theorem findBody_outline (name : String) (ls : List Level) :
    findBody name (ls.map Level.outline) = (findBody name ls).map fun p => (p.1.map Level.outline, p.2.outline) := by
  induction ls with
  | nil => rfl
  | cons l ls ih =>
    have hlookup : l.outline.elements.lookup name = (l.elements.lookup name).map Body.outline :=
      lookup_map_snd (fun _ => Body.outline) name l.elements
    simp only [List.map_cons, findBody, hlookup]
    cases l.elements.lookup name with
    | none => exact ih
    | some body => rfl

theorem target?_outline (leaf owner : List Level) (op : Op) :
    target? (leaf.map Level.outline) (owner.map Level.outline) op =
      (target? leaf owner op).map fun place => (place.1.map Level.outline, calls place.2) := by
  cases op with
  | literal text => rfl
  | elementClasses names => rfl
  | invokeElement name => simp [target?, findBody_outline, Function.comp_def, Body.outline]
  | invokeContent name => simp [target?, findBody_outline, Function.comp_def, Body.outline]
  | superContent name => simp [target?, ← List.map_tail, findBody_outline, Function.comp_def, Body.outline]

/-! ## The check on an outline -/

/-- an operation that invokes nothing is passed over -/
theorem visit_of_not_isCall {leaf owner : List Level} {active done : List String} {op : Op}
    {followed : List Level → List String → List Op → List String → Except Obstacle (List String)}
    (h : op.isCall = false) : visit leaf followed owner active done op = .ok done := by
  cases op with
  | literal text => rfl
  | elementClasses names => rfl
  | _ => cases h

/-- following operations is following those that invoke others, in the outline as in the levels -/
theorem follow_outline (leaf : List Level) (depth : Nat) (owner : List Level) (active : List String) (ops : List Op)
    (done : List String) :
    follow (leaf.map Level.outline) depth (owner.map Level.outline) active (calls ops) done =
      follow leaf depth owner active ops done := by
  induction depth generalizing owner active ops done with
  | zero => rfl
  | succ depth ihd =>
    have hvisit (op : Op) (done : List String) :
        visit (leaf.map Level.outline) (follow (leaf.map Level.outline) depth) (owner.map Level.outline) active done op =
          visit leaf (follow leaf depth) owner active done op := by
      have htarget := target?_outline leaf owner op
      cases op with
      | literal text => rfl
      | elementClasses names => rfl
      | invokeElement name =>
        simp only [visit, htarget]
        cases target? leaf owner (.invokeElement name) with
        | none => rfl
        | some place => simp only [Option.map_some, ihd]
      | invokeContent name =>
        simp only [visit, htarget]
        cases target? leaf owner (.invokeContent name) with
        | none => rfl
        | some place => simp only [Option.map_some, ihd]
      | superContent name =>
        simp only [visit, htarget]
        cases target? leaf owner (.superContent name) with
        | none => rfl
        | some place => simp only [Option.map_some, ihd]
    rw [follow_succ, follow_succ]
    induction ops generalizing done with
    | nil => rfl
    | cons op ops ih =>
      rw [List.foldlM_cons]
      cases hcall : op.isCall with
      | true =>
        rw [calls, List.filter_cons_of_pos hcall, List.foldlM_cons, hvisit]
        exact congrArg (visit leaf (follow leaf depth) owner active done op >>= ·) (funext ih)
      | false =>
        rw [calls, List.filter_cons_of_neg (by simp [hcall]), visit_of_not_isCall hcall]
        exact ih done

theorem Template.chain_outline (t : Template) : t.outline.chain = t.chain.map Level.outline := rfl

/-- the check finds the same in the outline -/
theorem Template.recursiveElement?_outline (t : Template) : t.outline.recursiveElement? = t.recursiveElement? := by
  have hroot : t.outline.ancestors.getLast?.getD t.outline.leaf = (t.ancestors.getLast?.getD t.leaf).outline := by
    simp only [Template.outline, List.getLast?_map]
    cases t.ancestors.getLast? with
    | none => rfl
    | some l => rfl
  have hbound : t.outline.depthBound = t.depthBound := by
    have hlength : (fun l : Level => l.elements.length) ∘ Level.outline = fun l => l.elements.length := by
      funext l
      simp [Level.outline]
    simp only [Template.depthBound, t.chain_outline, List.length_map, List.length_flatMap, List.map_map, hlength]
  unfold Template.recursiveElement?
  rw [hbound, t.chain_outline]
  simp only [Template.rootOwner, Template.rootOps, hroot]
  rw [← follow_outline t.chain]
  rfl

/-! ## Outlines of documents -/

theorem calls_append (ops ops' : List Op) : calls (ops ++ ops') = calls ops ++ calls ops' := List.filter_append ..

theorem calls_push (b : Buffer) (op : Op) : calls (b.push op).toList = calls b.toList ++ calls [op] := by
  cases op with
  | literal text =>
    obtain ⟨reversed⟩ := b
    simp only [Buffer.push, Buffer.pushText]
    split
    · simp [calls, Op.isCall]
    · split
      · simp [calls, Buffer.toList, Op.isCall]
      · simp [calls, Buffer.toList, Op.isCall]
  | _ => rw [Buffer.toList_push (by simp), calls_append]

/-- collecting operations changes nothing about what they invoke -/
theorem calls_ofList (ops : List Op) : calls (Buffer.ofList ops).toList = calls ops := by
  have hpushAll (b : Buffer) : calls (b.pushAll ops).toList = calls b.toList ++ calls ops := by
    induction ops generalizing b with
    | nil => simp [Buffer.pushAll, calls]
    | cons op ops ih =>
      change calls ((b.push op).pushAll ops).toList = _
      rw [ih, calls_push, List.append_assoc, ← calls_append, List.singleton_append]
  exact hpushAll {}

/-- what resolves without any level invokes nothing -/
theorem calls_eq_nil {ops : List Op} (h : ∀ op ∈ ops, op.Resolves [] none) : calls ops = [] := by
  refine List.filter_eq_nil_iff.2 fun op hop => ?_
  have hresolves := h op hop
  cases op with
  | literal text => simp [Op.isCall]
  | elementClasses names => simp [Op.isCall]
  | invokeElement name => simp [Op.Resolves, findBody] at hresolves
  | invokeContent name => simp [Op.Resolves] at hresolves
  | superContent name => simp [Op.Resolves, findBody] at hresolves

theorem calls_openingOps (o : Occurrence) : calls o.openingOps = [] :=
  calls_eq_nil fun _ hop => Occurrence.resolves_of_mem_openingOps hop

theorem calls_closingOps (o : Occurrence) : calls o.closingOps = [] :=
  calls_eq_nil fun _ hop => Occurrence.resolves_of_mem_closingOps hop

theorem calls_renderOps (name : String) (o : Occurrence) :
    calls (o.renderOps name) =
      if o.element.isHelper || !(o.element.content.getD []).isEmpty then [.invokeContent name] else [] := by
  unfold Occurrence.renderOps
  cases o.element.isHelper with
  | true => rfl
  | false =>
    simp only [Bool.false_eq_true, if_false, calls_append, calls_openingOps, calls_closingOps, List.nil_append,
      List.append_nil, Bool.false_or]
    cases (o.element.content.getD []).isEmpty with
    | true => rfl
    | false => rfl

theorem calls_renderOps_blank (name : String) (o : Occurrence) :
    calls (o.blank.renderOps name) = calls (o.renderOps name) := by
  have hempty : (o.blank.element.content.getD []).isEmpty = (o.element.content.getD []).isEmpty := by
    rw [Occurrence.blank, Element.blank_content]
    cases o.element.content.getD [] with
    | nil => simp only [blankNodes]
    | cons n ns => simp only [blankNodes, List.isEmpty_cons]
  rw [calls_renderOps, calls_renderOps, hempty]
  rfl

theorem calls_ops_blank (ps : Parts) : calls ps.blank.ops = calls ps.ops := by
  induction ps with
  | done => rfl
  | text value rest ih => exact ih
  | anonymous o children rest ihc ih =>
    simp only [Parts.blank, Parts.ops, calls_append, calls_openingOps, calls_closingOps, ihc, ih]
  | named name o children rest _ ih => exact congrArg (Op.invokeElement name :: ·) ih
  | superCall target rest ih => exact congrArg (Op.superContent target :: ·) ih

theorem outline_body_blank (name : String) (d : Definition) : (d.blank.body name).outline = (d.body name).outline := by
  simp only [Body.outline, Definition.body, calls_ofList, Definition.blank, calls_renderOps_blank, calls_ops_blank]

theorem Level.Realises.outline {l l' : Level} {ancestors ancestors' : List Level} {r : Reading}
    (h : l.Realises ancestors r) (hblank : l'.Realises ancestors' r.blank)
    (hempty : ancestors'.isEmpty = ancestors.isEmpty) : l'.outline = l.outline := by
  have hroot : calls l'.root = calls l.root := by
    rw [h.root, hblank.root, hempty]
    split
    · rw [calls_ofList, calls_ofList]
      exact calls_ops_blank r.parts
    · rfl
  have helements : (l'.elements.map fun p => (p.1, p.2.outline)) = l.elements.map fun p => (p.1, p.2.outline) := by
    rw [h.elements, hblank.elements]
    simp only [Parts.bodies, Reading.blank, Parts.definitions_blank, List.map_reverse, List.map_map, Function.comp_def,
      outline_body_blank]
  unfold Level.outline
  rw [hroot, helements]

/-- levels that realise readings and levels that realise their blank forms have the same outline -/
theorem Realised.outline {rs : List Reading} {ls ls' : List Level} (h : Realised rs ls)
    (hblank : Realised (rs.map Reading.blank) ls') : ls'.map Level.outline = ls.map Level.outline := by
  induction h generalizing ls' with
  | nil =>
    cases hblank
    rfl
  | @cons r rs l ls hl hs ih =>
    cases hblank with
    | @cons _ _ l' ls' hl' hs' =>
      have hempty : ls'.isEmpty = ls.isEmpty := by
        cases hs with
        | nil =>
          cases hs'
          rfl
        | cons _ _ =>
          cases hs'
          rfl
      rw [List.map_cons, List.map_cons, hl.outline hl' hempty, ih hs']

/-- the check finds the same in a template as in one that was made without texts and values -/
theorem recursiveElement?_blank {rs : List Reading} {t t' : Template} (h : Realised rs t.chain)
    (hblank : Realised (rs.map Reading.blank) t'.chain) : t'.recursiveElement? = t.recursiveElement? := by
  have houtline : t'.outline = t.outline := by
    have hchain := h.outline hblank
    rw [← Template.chain_outline, ← Template.chain_outline] at hchain
    obtain ⟨hleaf, hancestors⟩ := List.cons.inj hchain
    calc t'.outline = ⟨t'.outline.leaf, t'.outline.ancestors⟩ := rfl
      _ = ⟨t.outline.leaf, t.outline.ancestors⟩ := by rw [hleaf, hancestors]
  rw [← t'.recursiveElement?_outline, houtline, t.recursiveElement?_outline]

end BlockTemplates
