/-
What compiling and rendering take for granted. A walk needs a scope to write to, and leaves the scopes that it enters; a
rendering needs every element that an operation names, and a super call a level above its own. Both are so for all
documents, whether they compile or not.

Main statement: `assumptions_hold`.
-/
import BlockTemplates.Proofs.Compiling.ScopeStack
import BlockTemplates.Proofs.Rendering.Expansion

namespace BlockTemplates

open Markup Render

/-! ## While compiling -/

/-- the walk over a whole document, with its scopes on a stack -/
def Document.stackWalk (d : Document) (ancestors : List Level) : StackWalk Unit :=
  BlockTemplates.stackWalk (d.surroundings ancestors) (nodesHeight d.block.content + d.options.expansionLimit)
    d.block.content

/-- begun with the top level on its stack, the walk comes to the same end as the walk without one, with the top level
alone on its stack if it succeeds -/
theorem Document.outcome_stackWalk (d : Document) (ancestors : List Level) (r : Record) :
    (d.stackWalk ancestors).outcome [{}] r =
      match ((d.walk ancestors).run.run r).run with
      | (.ok top, r') => (.ok ((), [top]), r')
      | (.error e, r') => (.error (.refused e), r') :=
  (simulates_stackWalk _ _ _ {} [] r (by simp)).1

/-! ## While rendering -/

/-- what the operation looks up is there: for invocations from the leaf, for super calls above their own level -/
def Render.Op.Found (leaf owner : List Level) : Op → Prop
  | .literal _ | .elementClasses _ => True
  | .invokeElement name | .invokeContent name => (findBody name leaf).isSome
  | .superContent name => ∃ level parent rest, owner = level :: parent :: rest ∧ (findBody name (parent :: rest)).isSome

theorem Fits.found {leaf : List Level} {own : Option String} {place : Place} (h : Fits leaf own place) :
    ∀ op ∈ place.2, op.Found leaf place.1 := by
  intro op hop
  have hr := h.ops op hop
  cases op with
  | literal text => trivial
  | elementClasses names => trivial
  | invokeElement name => exact findBody_isSome_of_suffix h.suffix hr.2
  | invokeContent name => exact findBody_isSome_of_suffix h.suffix hr.2
  | superContent name =>
    obtain ⟨-, hsome⟩ := hr
    -- nothing is found above the last level
    rcases hp : place.1 with _ | ⟨level, _ | ⟨parent, rest⟩⟩
    · simp [hp, findBody] at hsome
    · simp [hp, findBody] at hsome
    · exact ⟨level, parent, rest, rfl, by simpa [hp] using hsome⟩

/-- a machine whose operations fit has carried them out, or goes on -/
theorem Machine.frames_eq_nil_or_step {leaf : List Level} {m : Machine} (h : m.Fits leaf) :
    m.frames = [] ∨ (m.step leaf).isSome := by
  cases hs : m.step leaf with
  | none => exact .inl (frames_eq_nil h hs)
  | some m' => exact .inr rfl

/-- **Nothing that is taken for granted fails.** On top of any chain that compiled, the walk over any document finds a
scope wherever it needs one, and ends with the top level alone if it succeeds. While the chain is rendered, at every step
all that is still to be carried out finds what it looks up, so the rendering goes on until nothing is left. -/
theorem assumptions_hold {ds : List Document} {parent : Option Template} (h : Compiled ds parent) :
    (∀ d : Document, (d.stackWalk (levelsOf parent)).outcome [{}] (d.start (levelsOf parent)) =
      match ((d.walk (levelsOf parent)).run.run (d.start (levelsOf parent))).run with
      | (.ok top, r) => (.ok ((), [top]), r)
      | (.error e, r) => (.error (.refused e), r)) ∧
    ∀ t, parent = some t → (∃ text, t.render = .ok text) ∧
      ∀ n m, t.machine.after t.chain n = some m →
        (∀ place ∈ m.frames, ∀ op ∈ place.2, op.Found t.chain place.1) ∧
          (m.frames = [] ∨ (m.step t.chain).isSome) := by
  refine ⟨fun d => d.outcome_stackWalk _ _, ?_⟩
  rintro t rfl
  obtain ⟨rs, -, hr⟩ := compiled_reads h
  have hw : WellBound t.chain := hr.wellBound
  have hfits : Fits t.chain none t.start := Realised.fits_start hr
  refine ⟨Template.render_of_check hw hfits (recursiveElement?_of_compiled h), ?_⟩
  intro n m hm
  have hfitted := Machine.fits_after hw hfits.machine hm
  refine ⟨?_, Machine.frames_eq_nil_or_step hfitted⟩
  intro place hp
  obtain ⟨own, hown⟩ := hfitted place hp
  exact hown.found

theorem greetingAgain_assumptions :
    ∃ t, Compiled [greetingAgain, greeting] (some t) ∧
      (∃ top r, (reentrant.stackWalk t.chain).outcome [{}] (reentrant.start t.chain) = (.error (.refused top), r)) ∧
      ∀ n m, t.machine.after t.chain n = some m → m.frames = [] ∨ (m.step t.chain).isSome := by
  obtain ⟨base, hbase⟩ : ∃ base, (compile greeting.block none greeting.options).result = .ok base := ⟨_, rfl⟩
  obtain ⟨t, ht⟩ : ∃ t, (compile greetingAgain.block (some base) greetingAgain.options).result = .ok t := by
    cases hbase
    exact ⟨_, rfl⟩
  have hcompiled : Compiled [greetingAgain, greeting] (some t) := .document _ (.document _ .none hbase) ht
  obtain ⟨hwalk, hrun⟩ := assumptions_hold hcompiled
  refine ⟨t, hcompiled, ?_, fun n m hm => ((hrun t rfl).2 n m hm).2⟩
  have hrefused := hwalk reentrant
  cases hbase
  cases ht
  exact ⟨_, _, hrefused⟩

end BlockTemplates
