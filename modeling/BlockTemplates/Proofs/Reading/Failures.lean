/-
What a walk fails with. `Raises P` says of a walk that whatever it fails with satisfies `P`; the rules follow the way a
walk is put together, so that a new kind of step needs one rule more.

Main statements: `walk_raises` (a walk fails for reasons of its own, never for recursion) and `compile_eq_recursive` (an
element that contains itself is found by the check alone).
-/
import BlockTemplates.Proofs.Reading.Chain

namespace BlockTemplates

open Html Markup Render

/-! ## Walks that fail -/

/-- the walk, begun with the record `r`, fails with `e` and leaves the record `r'` -/
def Fails {α : Type} (w : Walk α) (r : Record) (e : CompileError) (r' : Record) : Prop :=
  (w.run.run r).run = (.error e, r')

section

variable {α β : Type} {r r' : Record} {e : CompileError}

theorem fails_bind {w : Walk α} {f : α → Walk β} :
    Fails (w >>= f) r e r' ↔ Fails w r e r' ∨ ∃ a r₁, Runs w r a r₁ ∧ Fails (f a) r₁ e r' := by
  simp only [Fails, Runs, ExceptT.run_bind, StateT.run_bind, Id.run_bind]
  rcases (w.run.run r).run with ⟨e' | a, r₁⟩
  · simp
  · simp only [Prod.mk.injEq, Except.ok.injEq, reduceCtorEq, false_and, false_or]
    constructor
    · intro h
      exact ⟨a, r₁, ⟨rfl, rfl⟩, h⟩
    · rintro ⟨_, _, ⟨rfl, rfl⟩, h⟩
      exact h

theorem not_fails_pure {a : α} : ¬ Fails (pure a) r e r' := by simp [Fails]

theorem fails_throw {e' : CompileError} : Fails (throw e' : Walk α) r e r' ↔ e = e' ∧ r' = r := by
  simp [Fails, eq_comm]

theorem fails_ofExcept {x : Except CompileError α} : Fails (MonadExcept.ofExcept x) r e r' ↔ x = .error e ∧ r' = r := by
  cases x with
  | error e' => simp [MonadExcept.ofExcept, fails_throw, eq_comm]
  | ok a => simpa [MonadExcept.ofExcept] using not_fails_pure

theorem not_fails_modify {f : Record → Record} : ¬ Fails (modify f) r e r' := fun h => nomatch (Prod.mk.inj h).1

theorem not_fails_get : ¬ Fails get r e r' := fun h => nomatch (Prod.mk.inj h).1

end

/-- whatever the walk fails with satisfies `P` -/
def Raises {α : Type} (P : CompileError → Prop) (w : Walk α) : Prop := ∀ ⦃r e r'⦄, Fails w r e r' → P e

namespace Raises

variable {α β : Type} {P : CompileError → Prop}

theorem bind {w : Walk α} {f : α → Walk β} (hw : Raises P w) (hf : ∀ a, Raises P (f a)) : Raises P (w >>= f) := by
  intro r e r' h
  rcases fails_bind.1 h with h | ⟨a, r₁, -, h⟩
  · exact hw h
  · exact hf a h

theorem pure (a : α) : Raises P (Pure.pure a) := fun _ _ _ h => absurd h not_fails_pure

theorem throw {e : CompileError} (h : P e) : Raises P (MonadExcept.throw e : Walk α) :=
  fun _ _ _ hf => (fails_throw.1 hf).1 ▸ h

theorem ofExcept {x : Except CompileError α} (h : ∀ e, x = .error e → P e) : Raises P (MonadExcept.ofExcept x) :=
  fun _ _ _ hf => h _ (fails_ofExcept.1 hf).1

theorem modify (f : Record → Record) : Raises P (modify f : Walk Unit) := fun _ _ _ h => absurd h not_fails_modify

theorem get : Raises P (MonadState.get : Walk Record) := fun _ _ _ h => absurd h not_fails_get

end Raises

/-! ## The errors of a walk -/

/-- not an element that contains itself, which cannot be told before all elements are known -/
def CompileError.IsLocal (e : CompileError) : Prop := ∀ name, e ≠ .recursiveElement name

section

variable {env : Surroundings} {e : Element} {scope : Scope}

theorem raises_resolveTag {P : CompileError → Prop} : Raises P (resolveTag env e) := by
  unfold resolveTag
  split
  · exact .pure _
  · exact .bind (.modify _) fun _ => .pure _
  · exact .bind .get fun _ => .pure _

theorem isLocal_of_resolveSlots {ancestors : List Level} {attributes : Attributes} {name : Option String}
    {err : CompileError} (h : resolveSlots ancestors attributes name = .error err) : err.IsLocal := by
  unfold resolveSlots inheritedSlots at h
  split at h
  · simp [Except.map] at h
  · split at h
    · cases h
      simp [CompileError.IsLocal]
    · split at h
      · cases h
        simp [CompileError.IsLocal]
      · simp [Except.map] at h

theorem isLocal_of_openingTag {tag : String} {slots : AttributeSlots} {classNames : List String} {err : CompileError}
    (h : openingTag env tag slots classNames = .error err) : err.IsLocal := by
  unfold openingTag at h
  split at h
  · cases h
    simp [CompileError.IsLocal]
  · simp at h

theorem raises_namedSlots {name : String} {attributes : Option Attributes} :
    Raises CompileError.IsLocal (namedSlots env name attributes) := by
  unfold namedSlots
  split
  · exact .pure _
  · split
    · exact .pure _
    · exact .bind (.ofExcept fun _ h => isLocal_of_resolveSlots h) fun _ => .bind (.modify _) fun _ => .pure _

theorem raises_namedOps {name : String} {tag : Option String} {slots : AttributeSlots} :
    Raises CompileError.IsLocal (namedOps env e name tag slots) := by
  unfold namedOps
  split
  · exact .pure _
  · refine .bind (.modify _) fun _ => .bind (.ofExcept fun _ h => isLocal_of_openingTag h) fun _ => ?_
    split
    · exact .pure _
    · exact .pure _
    · exact .pure _

theorem raises_expansion {tag : Option String} : Raises CompileError.IsLocal (expansion env e tag) := by
  unfold expansion
  split
  · exact .throw (by simp [CompileError.IsLocal])
  · split
    · exact .throw (by simp [CompileError.IsLocal])
    · exact .bind (.modify _) fun _ => .pure _

theorem raises_define {P : CompileError → Prop} {name : String} {body : Body} : Raises P (define name body) := by
  unfold define
  refine .bind .get fun _ => ?_
  split
  · exact .bind (.modify _) fun _ => .modify _
  · exact .modify _

theorem raises_compileSuperCall {call : SuperCall} : Raises CompileError.IsLocal (compileSuperCall env call scope) := by
  unfold compileSuperCall
  split
  · exact .throw (by simp [CompileError.IsLocal])
  · split
    · exact .throw (by simp [CompileError.IsLocal])
    · split
      · exact .throw (by simp [CompileError.IsLocal])
      · exact .pure _

theorem raises_compileElement {expand : Scope → List Node → Walk Scope} {content : Scope → Walk Scope}
    (hcontent : ∀ inner, Raises CompileError.IsLocal (content inner))
    (hexpand : ∀ inner nodes, Raises CompileError.IsLocal (expand inner nodes)) :
    Raises CompileError.IsLocal (compileElement env expand e content scope) := by
  have hchildren (tag : Option String) (inner : Scope) :
      Raises CompileError.IsLocal (childrenOf env expand e content tag inner) := by
    unfold childrenOf
    split
    · exact .bind raises_expansion fun _ => hexpand inner _
    · exact hcontent inner
  rw [compileElement_eq]
  refine .bind raises_resolveTag fun tag => ?_
  split
  · exact .bind raises_namedSlots fun _ => .bind raises_namedOps fun _ => .bind (hchildren tag _) fun _ =>
      .bind raises_define fun _ => .pure _
  · unfold anonymousElement
    split
    · exact hchildren tag scope
    · refine .bind (.ofExcept fun _ h => isLocal_of_resolveSlots h) fun _ =>
        .bind (.ofExcept fun _ h => isLocal_of_openingTag h) fun _ => .bind (hchildren tag _) fun _ => ?_
      exact .pure _

theorem raises_compileNodes {expand : Scope → List Node → Walk Scope}
    (hexpand : ∀ inner nodes, Raises CompileError.IsLocal (expand inner nodes)) (nodes : List Node) :
    ∀ scope, Raises CompileError.IsLocal (compileNodes env expand scope nodes) := by
  induction nodes using nodes_induction with
  | nil => exact fun _ => .pure _
  | text value ns ih => exact fun _ => .bind (.pure _) ih
  | comment value multiline ns ih => exact fun _ => .bind (.pure _) ih
  | superCall call ns ih => exact fun _ => .bind raises_compileSuperCall ih
  | element e ns ihc ih =>
    intro scope
    simp only [compileNodes, compileNode_element]
    exact .bind (raises_compileElement ihc hexpand) ih

end

/-- a walk fails for reasons of its own, never because an element contains itself -/
theorem walk_raises (env : Surroundings) (depth : Nat) (scope : Scope) (nodes : List Node) :
    Raises CompileError.IsLocal (walk env depth scope nodes) := by
  induction depth generalizing scope nodes with
  | zero => exact raises_compileNodes (fun _ _ => .throw (by simp [CompileError.IsLocal])) nodes scope
  | succ depth ih => exact raises_compileNodes ih nodes scope

theorem draft_ne_recursive (d : Document) (parent : Option Template) (name : String) :
    draft d parent ≠ .error (.recursiveElement name) := by
  intro h
  unfold draft at h
  dsimp only at h
  split at h
  · rename_i e record hw
    cases h
    exact walk_raises _ _ _ _ hw name rfl
  · cases h

/-- compiling fails over recursion exactly where the check of a draft does -/
theorem compile_eq_recursive {d : Document} {parent : Option Template} {name : String} :
    (compile d.block parent d.options).result = .error (.recursiveElement name) ↔
      ∃ t, draft d parent = .ok t ∧ t.recursiveElement? = some name := by
  rw [compile_result]
  cases hd : draft d parent with
  | error e =>
    have hne := draft_ne_recursive d parent name
    rw [hd] at hne
    simpa [Except.bind] using fun h => hne (congrArg _ h)
  | ok t =>
    simp only [Except.bind, check_eq_error, CompileError.recursiveElement.injEq, Except.ok.injEq, exists_eq_left']
    exact ⟨fun ⟨_, hn, h⟩ => h ▸ hn, fun hn => ⟨name, hn, rfl⟩⟩

end BlockTemplates
