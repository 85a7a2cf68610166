/-
What a walk reports. Events are only ever added to what was reported before. But for the event of a helper that is
invoked, none of the steps of a walk reports anything that depends on helpers.

Main statements: the rules of `Reports` (for walks that are put together), and one lemma for each step that does not
invoke a helper.
-/
import BlockTemplates.Proofs.Reading.Walk

namespace BlockTemplates

open Markup Render

/-! ## Walks that add to what is reported -/

/-- the outcome of a walk, and the record afterwards -/
def outcome {α : Type} (w : Walk α) (r : Record) : Except CompileError α × Record := (w.run.run r).run

theorem outcome_bind {α β : Type} (w : Walk α) (f : α → Walk β) (r : Record) :
    outcome (w >>= f) r = match outcome w r with
      | (.error e, r₁) => (.error e, r₁)
      | (.ok a, r₁) => outcome (f a) r₁ := by
  simp only [outcome, ExceptT.run_bind, StateT.run_bind, Id.run_bind]
  rcases (w.run.run r).run with ⟨e | a, r₁⟩
  · rfl
  · rfl

/-- to what was reported before, the walk only adds events that satisfy `Q` -/
def Reports {α : Type} (Q : Event → Prop) (w : Walk α) : Prop :=
  ∀ r, ∃ new, (outcome w r).2.events = new ++ r.events ∧ ∀ event ∈ new, Q event

namespace Reports

variable {α β : Type} {Q : Event → Prop}

theorem silent {w : Walk α} (h : ∀ r, (outcome w r).2.events = r.events) : Reports Q w := fun r => ⟨[], h r, by simp⟩

theorem bind {w : Walk α} {f : α → Walk β} (hw : Reports Q w) (hf : ∀ a, Reports Q (f a)) : Reports Q (w >>= f) := by
  intro r
  obtain ⟨new, hnew, hQ⟩ := hw r
  rw [outcome_bind]
  rcases hr : outcome w r with ⟨e | a, r₁⟩
  · rw [hr] at hnew
    exact ⟨new, hnew, hQ⟩
  · rw [hr] at hnew
    obtain ⟨later, hlater, hQ'⟩ := hf a r₁
    refine ⟨later ++ new, ?_, ?_⟩
    · rw [hlater, hnew, List.append_assoc]
    · intro event hevent
      rcases List.mem_append.1 hevent with hevent | hevent
      · exact hQ' event hevent
      · exact hQ event hevent

theorem pure (a : α) : Reports Q (Pure.pure a) := silent fun _ => rfl

theorem throw (e : CompileError) : Reports Q (MonadExcept.throw e : Walk α) := silent fun _ => rfl

theorem ofExcept (x : Except CompileError α) : Reports Q (MonadExcept.ofExcept x : Walk α) := by
  cases x with
  | error e => exact .throw e
  | ok a => exact .pure a

theorem modify {f : Record → Record} (h : ∀ r, (f r).events = r.events) : Reports Q (modify f : Walk Unit) := silent h

theorem get : Reports Q (MonadState.get : Walk Record) := silent fun _ => rfl

theorem report {event : Event} (h : Q event) : Reports Q (report event) := fun _ => ⟨[event], rfl, by simpa using h⟩

theorem mono {Q' : Event → Prop} {w : Walk α} (h : Reports Q w) (hmono : ∀ event, Q event → Q' event) :
    Reports Q' w := by
  intro r
  obtain ⟨new, hnew, hQ⟩ := h r
  exact ⟨new, hnew, fun event hevent => hmono event (hQ event hevent)⟩

end Reports

/-! ## Steps without helpers -/

/-- the event is not that of a helper -/
def Event.IsPlain : Event → Prop
  | .expandingHelper _ => False
  | _ => True

section

variable {env : Surroundings} {e : Element}

theorem reports_noteTag (name tag : String) : Reports Event.IsPlain (noteTag name tag) := by
  refine .modify fun r => ?_
  split
  · rfl
  · rfl

theorem reports_define (name : String) (body : Body) : Reports Event.IsPlain (define name body) := by
  refine .bind .get fun r => ?_
  split
  · exact .bind (.report trivial) fun _ => .modify fun _ => rfl
  · exact .modify fun _ => rfl

theorem reports_resolveTag : Reports Event.IsPlain (resolveTag env e) := by
  unfold resolveTag
  split
  · exact .pure _
  · exact .bind (reports_noteTag _ _) fun _ => .pure _
  · exact .bind .get fun _ => .pure _

theorem reports_namedSlots {name : String} {attributes : Option Attributes} :
    Reports Event.IsPlain (namedSlots env name attributes) := by
  unfold namedSlots
  split
  · exact .pure _
  · split
    · exact .pure _
    · exact .bind (.ofExcept _) fun _ => .bind (.modify fun _ => rfl) fun _ => .pure _

theorem reports_namedOps {name : String} {tag : Option String} {slots : AttributeSlots} :
    Reports Event.IsPlain (namedOps env e name tag slots) := by
  unfold namedOps
  split
  · exact .pure _
  · refine .bind (.report trivial) fun _ => .bind (.ofExcept _) fun _ => ?_
    split
    · exact .pure _
    · exact .pure _
    · exact .pure _

theorem reports_compileSuperCall {call : SuperCall} {scope : Scope} :
    Reports Event.IsPlain (compileSuperCall env call scope) := by
  unfold compileSuperCall
  split
  · exact .throw _
  · split
    · exact .throw _
    · split
      · exact .throw _
      · exact .pure _

end

end BlockTemplates
