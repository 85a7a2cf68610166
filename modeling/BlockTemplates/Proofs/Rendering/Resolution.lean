/-
Where the operations of a chain lead. Every operation of a compiled level names an element that is defined: for element
and content invocations on the level itself or above, for super calls above it. What an operation invokes is again
operations of the chain, so this holds of everything that rendering can reach.

Main statements: `Fits.target` (one invocation), `Machine.fits_after` (a whole run), `Realised.wellBound` and
`Realised.fits_start` (the levels of a chain and the operations of its root).
-/
import BlockTemplates.Proofs.Reading.Chain
import BlockTemplates.Proofs.Rendering.Steps

namespace BlockTemplates

open Markup Render

/-! ## Names that are defined -/

/-- the operation is one that the content of an element can have, or its tags if `own` is its name, and names an element
that is defined for the level `owner` starts with -/
def Render.Op.Resolves (owner : List Level) (own : Option String) : Op → Prop
  | .literal _ | .elementClasses _ => True
  | .invokeElement name => own = none ∧ (findBody name owner).isSome
  | .invokeContent name => own = some name ∧ (findBody name owner).isSome
  | .superContent name => own = none ∧ (findBody name owner.tail).isSome

/-- operations of the part `place.1` of the chain that all resolve there -/
structure Fits (leaf : List Level) (own : Option String) (place : Place) : Prop where
  suffix : place.1 <:+ leaf
  ops : ∀ op ∈ place.2, op.Resolves place.1 own

/-- the operations of all elements of a chain fit -/
def WellBound (leaf : List Level) : Prop :=
  ∀ ⦃owner chain name body⦄, chain <:+ leaf → findBody name chain = some (owner, body) →
    Fits leaf (some name) (owner, body.render) ∧ Fits leaf none (owner, body.content)

/-- what is defined above is defined below -/
theorem findBody_isSome_of_suffix {name : String} {chain leaf : List Level} (hs : chain <:+ leaf)
    (h : (findBody name chain).isSome) : (findBody name leaf).isSome := by
  rw [findBody_isSome_iff] at h ⊢
  obtain ⟨l, hl, hd⟩ := h
  exact ⟨l, hs.subset hl, hd⟩

/-- whose tags an operation invokes, absent if it invokes content -/
def Render.Op.tagsOf : Op → Option String
  | .invokeElement name => some name
  | _ => none

/-- an operation that fits invokes operations that fit -/
theorem Fits.target {leaf : List Level} (hw : WellBound leaf) {own : Option String} {place next : Place} {op : Op}
    (h : Fits leaf own place) (ht : target? leaf place.1 op = some next) : Fits leaf op.tagsOf next := by
  cases op with
  | literal text => simp [target?] at ht
  | elementClasses names => simp [target?] at ht
  | invokeElement name =>
    simp only [target?, Option.map_eq_some_iff] at ht
    obtain ⟨⟨owner, body⟩, hf, rfl⟩ := ht
    exact (hw List.suffix_rfl hf).1
  | invokeContent name =>
    simp only [target?, Option.map_eq_some_iff] at ht
    obtain ⟨⟨owner, body⟩, hf, rfl⟩ := ht
    exact (hw List.suffix_rfl hf).2
  | superContent name =>
    simp only [target?, Option.map_eq_some_iff] at ht
    obtain ⟨⟨owner, body⟩, hf, rfl⟩ := ht
    exact (hw ((List.tail_suffix place.1).trans h.suffix) hf).2

/-- an operation that fits is markup, or invokes operations -/
theorem Fits.cases {leaf : List Level} {own : Option String} {place : Place} {op : Op} (h : Fits leaf own place)
    (hop : op ∈ place.2) :
    (∃ text, op = .literal text) ∨ (∃ names, op = .elementClasses names) ∨
      ∃ next, target? leaf place.1 op = some next := by
  have hr := h.ops op hop
  cases op with
  | literal text => exact .inl ⟨text, rfl⟩
  | elementClasses names => exact .inr (.inl ⟨names, rfl⟩)
  | invokeElement name =>
    obtain ⟨p, hp⟩ := Option.isSome_iff_exists.1 (findBody_isSome_of_suffix h.suffix hr.2)
    simp [target?, hp]
  | invokeContent name =>
    obtain ⟨p, hp⟩ := Option.isSome_iff_exists.1 (findBody_isSome_of_suffix h.suffix hr.2)
    simp [target?, hp]
  | superContent name =>
    obtain ⟨p, hp⟩ := Option.isSome_iff_exists.1 hr.2
    simp [target?, hp]

/-! ## Operations of parts -/

/-- merging literals adds no other operations -/
theorem Render.Buffer.mem_toList_push {b : Buffer} {op op' : Op} (h : op' ∈ (b.push op).toList) :
    (∃ text, op' = .literal text) ∨ op' ∈ b.toList ∨ op' = op := by
  obtain ⟨reversed⟩ := b
  simp only [toList, List.mem_reverse] at h ⊢
  cases op with
  | literal text =>
    simp only [push, pushText] at h
    split at h
    · exact .inr (.inl h)
    · split at h
      · rcases List.mem_cons.1 h with rfl | h
        · exact .inl ⟨_, rfl⟩
        · exact .inr (.inl (List.mem_cons_of_mem _ h))
      · rcases List.mem_cons.1 h with rfl | h
        · exact .inl ⟨_, rfl⟩
        · exact .inr (.inl h)
  | _ =>
    rcases List.mem_cons.1 h with rfl | h
    · exact .inr (.inr rfl)
    · exact .inr (.inl h)

theorem Render.Buffer.mem_toList_pushAll {b : Buffer} {ops : List Op} {op : Op} (h : op ∈ (b.pushAll ops).toList) :
    (∃ text, op = .literal text) ∨ op ∈ b.toList ∨ op ∈ ops := by
  induction ops generalizing b with
  | nil => exact .inr (.inl h)
  | cons o ops ih =>
    rcases ih h with hl | hb | ho
    · exact .inl hl
    · rcases mem_toList_push hb with hl | hb | rfl
      · exact .inl hl
      · exact .inr (.inl hb)
      · exact .inr (.inr List.mem_cons_self)
    · exact .inr (.inr (List.mem_cons_of_mem _ ho))

/-- operations that resolve still do when they are collected -/
theorem resolves_of_mem_ofList {owner : List Level} {own : Option String} {ops : List Op}
    (h : ∀ op ∈ ops, op.Resolves owner own) : ∀ op ∈ (Buffer.ofList ops).toList, op.Resolves owner own := by
  intro op hop
  rcases Buffer.mem_toList_pushAll hop with ⟨text, rfl⟩ | hop | hop
  · trivial
  · simp [Buffer.toList] at hop
  · exact h op hop

theorem resolves_of_mem_attributeOps {owner : List Level} {own : Option String} {slots : AttributeSlots}
    {classNames : List String} {op : Op} (h : op ∈ attributeOps slots classNames) : op.Resolves owner own := by
  unfold attributeOps at h
  rcases List.mem_append.1 h with h | h
  · split at h
    · simp only [List.mem_cons, List.not_mem_nil, or_false] at h
      rcases h with rfl | rfl | rfl <;> trivial
    · simp at h
  · obtain ⟨slot, -, h⟩ := List.mem_flatMap.1 h
    unfold slotOps at h
    dsimp only at h
    split at h
    · simp only [List.mem_cons, List.not_mem_nil, or_false] at h
      rcases h with rfl | rfl | rfl <;> trivial
    · obtain rfl := List.mem_singleton.1 h
      trivial

namespace Occurrence

theorem resolves_of_mem_openingOps {owner : List Level} {own : Option String} {o : Occurrence} {op : Op}
    (h : op ∈ o.openingOps) : op.Resolves owner own := by
  simp only [openingOps, List.mem_cons, List.mem_append, List.not_mem_nil, or_false] at h
  rcases h with rfl | h | rfl
  · trivial
  · exact resolves_of_mem_attributeOps h
  · trivial

theorem resolves_of_mem_closingOps {owner : List Level} {own : Option String} {o : Occurrence} {op : Op}
    (h : op ∈ o.closingOps) : op.Resolves owner own := by
  unfold closingOps at h
  split at h
  · obtain rfl := List.mem_singleton.1 h
    trivial
  · simp at h

/-- the tags of an element invoke nothing but its content -/
theorem resolves_of_mem_renderOps {owner : List Level} {name : String} {o : Occurrence} {op : Op}
    (hname : (findBody name owner).isSome) (h : op ∈ o.renderOps name) : op.Resolves owner (some name) := by
  unfold renderOps at h
  split at h
  · obtain rfl := List.mem_singleton.1 h
    exact ⟨rfl, hname⟩
  · rcases List.mem_append.1 h with h | h
    · rcases List.mem_append.1 h with h | h
      · exact resolves_of_mem_openingOps h
      · split at h
        · simp at h
        · obtain rfl := List.mem_singleton.1 h
          exact ⟨rfl, hname⟩
    · exact resolves_of_mem_closingOps h

end Occurrence

/-- the operations of parts invoke elements that the parts define, and the targets of their super calls -/
theorem Parts.resolves_of_mem_ops {owner : List Level} {ps : Parts}
    (hd : ∀ p ∈ ps.definitions, (findBody p.1 owner).isSome)
    (ht : ∀ target ∈ ps.superTargets, (findBody target owner.tail).isSome) :
    ∀ op ∈ ps.ops, op.Resolves owner none := by
  induction ps with
  | done => simp [ops]
  | text value rest ih =>
    intro op hop
    rcases List.mem_cons.1 hop with rfl | hop
    · trivial
    · exact ih hd ht op hop
  | anonymous o children rest ihc ih =>
    simp only [definitions, superTargets, List.mem_append] at hd ht
    intro op hop
    simp only [ops, List.mem_append] at hop
    rcases hop with ((hop | hop) | hop) | hop
    · exact Occurrence.resolves_of_mem_openingOps hop
    · exact ihc (fun p hp => hd p (.inl hp)) (fun t hm => ht t (.inl hm)) op hop
    · exact Occurrence.resolves_of_mem_closingOps hop
    · exact ih (fun p hp => hd p (.inr hp)) (fun t hm => ht t (.inr hm)) op hop
  | named name o children rest _ ih =>
    simp only [definitions, superTargets, List.mem_append, List.mem_cons] at hd ht
    intro op hop
    rcases List.mem_cons.1 hop with rfl | hop
    · exact ⟨rfl, hd _ (.inr (.inl rfl))⟩
    · exact ih (fun p hp => hd p (.inr (.inr hp))) (fun t hm => ht t (.inr hm)) op hop
  | superCall target rest ih =>
    simp only [superTargets, List.mem_cons] at ht
    intro op hop
    rcases List.mem_cons.1 hop with rfl | hop
    · exact ⟨rfl, ht _ (.inl rfl)⟩
    · exact ih hd (fun t hm => ht t (.inr hm)) op hop

theorem Reading.mem_of_definition? {r : Reading} {name : String} {d : Definition} (h : r.definition? name = some d) :
    (name, d) ∈ r.parts.definitions := by
  obtain ⟨before, after, hp, -⟩ := List.lookup_eq_some_iff.1 h
  rw [← List.mem_reverse, hp]
  simp

/-- a definition has its own definitions and super calls from the parts that it is in -/
theorem Parts.mem_definitions {ps : Parts} {p : String × Definition} (h : p ∈ ps.definitions) :
    (∀ q ∈ p.2.children.definitions, q ∈ ps.definitions) ∧ ∀ t ∈ p.2.children.superTargets, t ∈ ps.superTargets := by
  induction ps with
  | done => simp [definitions] at h
  | text value rest ih => exact ih h
  | anonymous o children rest ihc ih =>
    simp only [definitions, superTargets, List.mem_append] at h ⊢
    rcases h with h | h
    · exact ⟨fun q hq => .inl ((ihc h).1 q hq), fun t ht => .inl ((ihc h).2 t ht)⟩
    · exact ⟨fun q hq => .inr ((ih h).1 q hq), fun t ht => .inr ((ih h).2 t ht)⟩
  | named name o children rest ihc ih =>
    simp only [definitions, superTargets, List.mem_append, List.mem_cons] at h ⊢
    rcases h with h | rfl | h
    · exact ⟨fun q hq => .inl ((ihc h).1 q hq), fun t ht => .inl ((ihc h).2 t ht)⟩
    · exact ⟨fun q hq => .inl hq, fun t ht => .inl ht⟩
    · exact ⟨fun q hq => .inr (.inr ((ih h).1 q hq)), fun t ht => .inr ((ih h).2 t ht)⟩
  | superCall target rest ih =>
    simp only [superTargets, List.mem_cons]
    exact ⟨(ih h).1, fun t ht => .inr ((ih h).2 t ht)⟩

/-! ## Chains -/

section

variable {l : Level} {ls : List Level} {r : Reading} (h : l.Realises ls r)
include h

theorem Level.Realises.findBody_isSome {p : String × Definition} (hp : p ∈ r.parts.definitions) :
    (findBody p.1 (l :: ls)).isSome := by
  rw [findBody_isSome_iff]
  refine ⟨l, List.mem_cons_self, ?_⟩
  unfold Level.defines
  rw [h.lookup, Option.isSome_map, Reading.definition?, List.lookup_isSome_iff]
  exact ⟨p, List.mem_reverse.2 hp, by simp⟩

/-- the top-level operations of a level resolve, whether they are kept or not -/
theorem Level.Realises.resolves_ops : ∀ op ∈ r.parts.ops, op.Resolves (l :: ls) none :=
  Parts.resolves_of_mem_ops (fun _ hp => h.findBody_isSome hp) h.targets

theorem Level.Realises.resolves_body {name : String} {d : Definition} (hd : r.definition? name = some d) :
    (∀ op ∈ (d.body name).render, op.Resolves (l :: ls) (some name)) ∧
      ∀ op ∈ (d.body name).content, op.Resolves (l :: ls) none := by
  have hmem := Reading.mem_of_definition? hd
  obtain ⟨hdefs, htargets⟩ := Parts.mem_definitions hmem
  constructor
  · apply resolves_of_mem_ofList
    intro op hop
    exact Occurrence.resolves_of_mem_renderOps (h.findBody_isSome hmem) hop
  · apply resolves_of_mem_ofList
    exact Parts.resolves_of_mem_ops (fun p hp => h.findBody_isSome (hdefs p hp)) fun t ht => h.targets t (htargets t ht)

end

theorem Realised.suffix {rs : List Reading} {ls chain : List Level} (h : Realised rs ls) (hs : chain <:+ ls) :
    ∃ rs', Realised rs' chain := by
  induction h with
  | nil =>
    rw [List.suffix_nil] at hs
    exact ⟨[], hs ▸ .nil⟩
  | cons hl hr ih =>
    rcases List.suffix_cons_iff.1 hs with rfl | hs
    · exact ⟨_, .cons hl hr⟩
    · exact ih hs

theorem Realised.wellBound {rs : List Reading} {ls : List Level} (h : Realised rs ls) : WellBound ls := by
  intro owner chain name body hs hf
  obtain ⟨rs', hc⟩ := h.suffix hs
  have howner := (findBody_suffix hf).1.trans hs
  rcases hc.findBody name with ⟨hnone, -⟩ | ⟨r, _, l, ls', d, hsome, -, hd, hl, -⟩
  · simp [hnone] at hf
  · rw [hsome] at hf
    cases hf
    obtain ⟨hrender, hcontent⟩ := hl.resolves_body hd
    exact ⟨⟨howner, hrender⟩, ⟨howner, hcontent⟩⟩

/-- the operations that rendering begins with -/
def Template.start (t : Template) : Place := (t.rootOwner, t.rootOps)

/-- the machine that renders the template -/
def Template.machine (t : Template) : Machine := ⟨[t.start], ""⟩

theorem Realised.fits_start {rs : List Reading} {t : Template} (h : Realised rs t.chain) :
    Fits t.chain none t.start := by
  rcases h.getLast? with ⟨-, hnone⟩ | ⟨r, l, -, hl, hr⟩
  · simp [Template.chain] at hnone
  · obtain ⟨howner, hops⟩ := t.rootOwner_eq hl
    refine ⟨?_, ?_⟩
    · obtain ⟨ls, hls⟩ := List.getLast?_eq_some_iff.1 hl
      simp only [Template.start, howner]
      exact ⟨ls, hls.symm⟩
    · simp only [Template.start, howner, hops, hr.root]
      exact resolves_of_mem_ofList hr.resolves_ops

/-! ## Runs of the machine -/

/-- all that is still to be carried out fits -/
def Machine.Fits (leaf : List Level) (m : Machine) : Prop := ∀ place ∈ m.frames, ∃ own, BlockTemplates.Fits leaf own place

theorem Fits.tail {leaf owner : List Level} {own : Option String} {op : Op} {ops : List Op}
    (h : Fits leaf own (owner, op :: ops)) : Fits leaf own (owner, ops) :=
  ⟨h.suffix, fun o ho => h.ops o (List.mem_cons_of_mem _ ho)⟩

section

variable {leaf : List Level} (hw : WellBound leaf)
include hw

theorem Machine.fits_after {n : Nat} {m m' : Machine} (h : m.Fits leaf) (hs : m.after leaf n = some m') :
    m'.Fits leaf := by
  refine forall_after ?_ ?_ h hs
  · rintro owner op ops ⟨own, hown⟩
    exact ⟨own, hown.tail⟩
  · rintro owner op ops next ⟨own, hown⟩ ht
    exact ⟨_, hown.target hw ht⟩

end

theorem Fits.machine {t : Template} {own : Option String} (h : Fits t.chain own t.start) : t.machine.Fits t.chain := by
  intro place hp
  obtain rfl := List.mem_singleton.1 hp
  exact ⟨own, h⟩

/-- a machine whose operations fit stops only when it has carried them out -/
theorem Machine.frames_eq_nil {leaf : List Level} {m : Machine} (h : m.Fits leaf) (hs : m.step leaf = none) :
    m.frames = [] := by
  obtain ⟨_ | ⟨⟨owner, _ | ⟨op, ops⟩⟩, frames⟩, out⟩ := m
  · rfl
  · simp [step] at hs
  · obtain ⟨own, hown⟩ := h _ List.mem_cons_self
    rcases hown.cases List.mem_cons_self with ⟨text, rfl⟩ | ⟨names, rfl⟩ | ⟨next, ht⟩
    · simp [step] at hs
    · simp [step] at hs
    · simp [step_invoke ops frames out ht] at hs

end BlockTemplates
