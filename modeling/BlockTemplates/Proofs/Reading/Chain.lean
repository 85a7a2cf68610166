/-
Chains of documents that compile. A `draft` is what a document makes on top of its parent before it is checked for
elements that contain themselves; compiling is a draft and the check. The levels of a chain that was compiled are those
that its readings describe, level by level.

Main statements: `compile_result` (compiling is a draft and the check), `draft_reads` and `compiled_reads` (chains realise
their readings).
-/
import BlockTemplates.Proofs.Reading.Walk

namespace BlockTemplates

open Markup Render

/-! ## Drafts -/

/-- where the walk over a document on top of the given levels takes place -/
def Document.surroundings (d : Document) (ancestors : List Level) : Surroundings where
  ancestors := ancestors
  hasPrefixes := !(ownPrefixes d.blockNames ancestors ++ leafPrefixes ancestors).isEmpty
  helpers := d.options.helpers

/-- the walk over a whole document -/
def Document.walk (d : Document) (ancestors : List Level) : Walk Scope :=
  BlockTemplates.walk (d.surroundings ancestors) (nodesHeight d.block.content + d.options.expansionLimit) {}
    d.block.content

/-- the record that the walk over a document begins with -/
def Document.start (d : Document) (ancestors : List Level) : Record where
  events := [.compiling (",".intercalate d.blockNames) (ownPrefixes d.blockNames ancestors ++ leafPrefixes ancestors)]

/-- the levels that a document without or with a parent stands on -/
def levelsOf (parent : Option Template) : List Level := (parent.map Template.chain).getD []

theorem levelsOf_isEmpty (parent : Option Template) : (levelsOf parent).isEmpty = parent.isNone := by
  cases parent with
  | none => rfl
  | some p => rfl

/-- what a document makes on top of its parent, before the check -/
def draft (d : Document) (parent : Option Template) : Except CompileError Template :=
  let ancestors := levelsOf parent
  match ((d.walk ancestors).run.run (d.start ancestors)).run with
  | (.error e, _) => .error e
  | (.ok top, record) =>
    .ok (assemble d.blockNames (ownPrefixes d.blockNames ancestors ++ leafPrefixes ancestors) ancestors top record)

theorem compile_result (d : Document) (parent : Option Template) :
    (compile d.block parent d.options).result = (draft d parent).bind Template.check := by
  unfold compile draft
  dsimp only
  change (match ((d.walk (levelsOf parent)).run.run (d.start (levelsOf parent))).run with
    | (.error e, record) => (⟨.error e, record.events.reverse⟩ : Compilation)
    | (.ok top, record) => _).result = _
  rcases ((d.walk (levelsOf parent)).run.run (d.start (levelsOf parent))).run with ⟨e | top, record⟩
  · rfl
  · rfl

theorem draft_eq_ok {d : Document} {parent : Option Template} {t : Template} (h : draft d parent = .ok t) :
    ∃ top record, Runs (d.walk (levelsOf parent)) (d.start (levelsOf parent)) top record ∧
      t = assemble d.blockNames (ownPrefixes d.blockNames (levelsOf parent) ++ leafPrefixes (levelsOf parent))
        (levelsOf parent) top record := by
  unfold draft Runs at *
  dsimp only at h
  split at h
  · simp at h
  · rename_i top record hw
    exact ⟨top, record, hw, (Except.ok.inj h).symm⟩

theorem check_eq_ok {t t' : Template} : t.check = .ok t' ↔ t.recursiveElement? = none ∧ t' = t := by
  unfold Template.check
  cases t.recursiveElement? with
  | none => simp [eq_comm]
  | some name => simp

theorem check_eq_error {t : Template} {e : CompileError} :
    t.check = .error e ↔ ∃ name, t.recursiveElement? = some name ∧ e = .recursiveElement name := by
  unfold Template.check
  cases t.recursiveElement? with
  | none => simp
  | some name => simp [eq_comm]

/-- documents, the leaf's first, that compile one on top of the other, and the template that they make; no documents
make no template -/
inductive Compiled : List Document → Option Template → Prop
  | none : Compiled [] none
  | document {ds parent t} (d : Document) :
    Compiled ds parent → (compile d.block parent d.options).result = .ok t → Compiled (d :: ds) (some t)

theorem compile_eq_ok {d : Document} {parent : Option Template} {t : Template} :
    (compile d.block parent d.options).result = .ok t ↔ draft d parent = .ok t ∧ t.recursiveElement? = none := by
  rw [compile_result]
  cases draft d parent with
  | error e => simp [Except.bind]
  | ok t' =>
    simp only [Except.bind, check_eq_ok, Except.ok.injEq]
    constructor
    · rintro ⟨h, rfl⟩
      exact ⟨rfl, h⟩
    · rintro ⟨rfl, h⟩
      exact ⟨h, rfl⟩

theorem recursiveElement?_of_compiled {ds : List Document} {t : Template} (h : Compiled ds (some t)) :
    t.recursiveElement? = none := by
  cases h with
  | document d _ hc => exact (compile_eq_ok.1 hc).2

theorem Compiled.unique {ds : List Document} {parent parent' : Option Template} (h : Compiled ds parent)
    (h' : Compiled ds parent') : parent' = parent := by
  induction h generalizing parent' with
  | none =>
    cases h'
    rfl
  | document d _ hc ih =>
    cases h' with
    | document _ hp' hc' =>
      cases ih hp'
      rw [hc] at hc'
      cases hc'
      rfl

theorem Compiled.of_append {us ds : List Document} {s : Option Template} (h : Compiled (us ++ ds) s) :
    ∃ parent, Compiled ds parent := by
  induction us generalizing s with
  | nil => exact ⟨s, h⟩
  | cons u us ih =>
    cases h with
    | document _ hp _ => exact ih hp

theorem compiled_root_iff {d : Document} {t : Template} :
    Compiled [d] (some t) ↔ (compile d.block none d.options).result = .ok t := by
  constructor
  · intro h
    cases h with
    | document _ hnone hc =>
      cases hnone
      exact hc
  · exact .document d .none

/-! ## Levels and readings -/

/-- the level holds what a reading says, on top of the given levels -/
structure Level.Realises (l : Level) (ancestors : List Level) (r : Reading) : Prop where
  prefixes : l.prefixes = r.prefixes
  root : l.root = if ancestors.isEmpty then (Buffer.ofList r.parts.ops).toList else []
  elements : l.elements = r.parts.bodies.reverse
  tagNames : l.tagNames = r.tags
  attributeLists : l.attributeLists = r.parts.slotLists.reverse
  targets : ∀ target ∈ r.parts.superTargets, (findBody target ancestors).isSome

/-- the levels of a chain hold what its readings say -/
inductive Realised : List Reading → List Level → Prop
  | nil : Realised [] []
  | cons {r rs l ls} : l.Realises ls r → Realised rs ls → Realised (r :: rs) (l :: ls)

theorem Realised.findTag {rs : List Reading} {ls : List Level} (h : Realised rs ls) (name : String) :
    findTag name ls = rs.findSome? (·.tags.lookup name) := by
  unfold BlockTemplates.findTag
  induction h with
  | nil => rfl
  | cons hl _ ih => simp only [List.findSome?_cons, hl.tagNames, ih]

theorem Realised.findSlots {rs : List Reading} {ls : List Level} (h : Realised rs ls) (name : String) :
    findSlots name ls = rs.findSome? (·.parts.slotLists.reverse.lookup name) := by
  unfold BlockTemplates.findSlots
  induction h with
  | nil => rfl
  | cons hl _ ih => simp only [List.findSome?_cons, hl.attributeLists, ih]

theorem Realised.context {rs : List Reading} {ls : List Level} (h : Realised rs ls) (d : Document) :
    (d.surroundings ls).context = contextOver d.options.helpers rs := by
  simp only [Surroundings.context, contextOver, Document.surroundings, h.findTag, h.findSlots]

theorem Realised.prefixes {rs : List Reading} {ls : List Level} (h : Realised rs ls) (names : List String) :
    ownPrefixes names ls ++ leafPrefixes ls = prefixesOver names rs := by
  cases h with
  | nil => simp [ownPrefixes, leafPrefixes, prefixesOver]
  | cons hl _ => simp [ownPrefixes, leafPrefixes, prefixesOver, hl.prefixes]

/-- what a draft is read as, on top of the readings that its parent realises -/
theorem draft_realises {d : Document} {parent : Option Template} {t : Template} {rs : List Reading}
    (hp : Realised rs (levelsOf parent)) (h : draft d parent = .ok t) :
    ∃ r : Reading, Reads (contextOver d.options.helpers rs) none [] d.block.content r.tags r.parts ∧
      r.prefixes = prefixesOver d.blockNames rs ∧ Realised (r :: rs) t.chain := by
  obtain ⟨top, record, hw, rfl⟩ := draft_eq_ok h
  obtain ⟨ps, hreads, rfl, hgrown, htargets⟩ := walk_reads hw
  rw [hp.context] at hreads
  refine ⟨⟨prefixesOver d.blockNames rs, ps, record.tagNames⟩, hreads, rfl, .cons ?_ hp⟩
  exact {
    prefixes := hp.prefixes d.blockNames
    root := rfl
    elements := by simpa [assemble, Document.start] using hgrown.elements
    tagNames := rfl
    attributeLists := by simpa [assemble, Document.start] using hgrown.attributeLists
    targets := htargets }

theorem compiled_reads {ds : List Document} {parent : Option Template} (h : Compiled ds parent) :
    ∃ rs, ReadsAll ds rs ∧ Realised rs (levelsOf parent) := by
  induction h with
  | none => exact ⟨[], .none, .nil⟩
  | @document ds parent t d _ hc ih =>
    obtain ⟨rs, hrs, hp⟩ := ih
    obtain ⟨⟨prefixes, parts, tags⟩, hreads, hprefixes, hr⟩ := draft_realises hp (compile_eq_ok.1 hc).1
    cases hprefixes
    exact ⟨_, .document hrs hreads, hr⟩

/-- a document on top of a chain that compiled: the chain realises its readings -/
theorem draft_reads {ds : List Document} {parent : Option Template} (h : Compiled ds parent) {d : Document} {t : Template}
    (hd : draft d parent = .ok t) : ∃ rs, ReadsAll (d :: ds) rs ∧ Realised rs t.chain := by
  obtain ⟨rs, hrs, hp⟩ := compiled_reads h
  obtain ⟨⟨prefixes, parts, tags⟩, hreads, hprefixes, hr⟩ := draft_realises hp hd
  cases hprefixes
  exact ⟨_, .document hrs hreads, hr⟩

/-! ## Definitions and bodies -/

theorem lookup_map_snd {α β : Type} (f : String → α → β) (name : String) (xs : List (String × α)) :
    (xs.map fun p => (p.1, f p.1 p.2)).lookup name = (xs.lookup name).map (f name) := by
  induction xs with
  | nil => rfl
  | cons p ps ih =>
    obtain ⟨n, a⟩ := p
    by_cases h : name = n
    · subst h
      simp
    · simp only [List.map_cons, List.lookup_cons, beq_eq_false_iff_ne.2 h, ih]

theorem Level.Realises.lookup {l : Level} {ancestors : List Level} {r : Reading} (h : l.Realises ancestors r)
    (name : String) : l.elements.lookup name = (r.definition? name).map (·.body name) := by
  rw [h.elements, Parts.bodies, ← List.map_reverse]
  exact lookup_map_snd (fun name d => d.body name) name r.parts.definitions.reverse

/-- looking up a body is looking up a definition -/
theorem Realised.findBody {rs : List Reading} {ls : List Level} (h : Realised rs ls) (name : String) :
    (findBody name ls = none ∧ findDefinition name rs = none) ∨
      ∃ r rs' l ls' d, findBody name ls = some (l :: ls', d.body name) ∧ findDefinition name rs = some (r :: rs', d) ∧
        r.definition? name = some d ∧ l.Realises ls' r ∧ Realised rs' ls' := by
  induction h with
  | nil => exact .inl ⟨rfl, rfl⟩
  | @cons r rs l ls hl hs ih =>
    unfold BlockTemplates.findBody findDefinition
    rw [hl.lookup]
    cases hd : r.definition? name with
    | some d => exact .inr ⟨r, rs, l, ls, d, rfl, rfl, hd, hl, hs⟩
    | none => exact ih

theorem Realised.tail {rs : List Reading} {ls : List Level} (h : Realised rs ls) : Realised rs.tail ls.tail := by
  cases h with
  | nil => exact .nil
  | cons _ hs => exact hs

theorem Realised.getLast? {rs : List Reading} {ls : List Level} (h : Realised rs ls) :
    (rs.getLast? = none ∧ ls.getLast? = none) ∨
      ∃ r l, rs.getLast? = some r ∧ ls.getLast? = some l ∧ l.Realises [] r := by
  induction h with
  | nil => exact .inl ⟨rfl, rfl⟩
  | @cons r rs l ls hl hs ih =>
    right
    rcases ih with ⟨hrs, hls⟩ | ⟨r', l', hrs, hls, h'⟩
    · obtain rfl := List.getLast?_eq_none_iff.1 hrs
      obtain rfl := List.getLast?_eq_none_iff.1 hls
      exact ⟨r, l, rfl, rfl, hl⟩
    · exact ⟨r', l', by simp [List.getLast?_cons, hrs], by simp [List.getLast?_cons, hls], h'⟩

theorem Template.rootOwner_eq (t : Template) {l : Level} (h : t.chain.getLast? = some l) :
    t.rootOwner = [l] ∧ t.rootOps = l.root := by
  unfold Template.rootOwner Template.rootOps
  rw [Template.chain, List.getLast?_cons, Option.some.injEq] at h
  rw [h]
  exact ⟨rfl, rfl⟩

end BlockTemplates
