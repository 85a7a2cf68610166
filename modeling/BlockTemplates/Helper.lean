/-
Helpers: functions that are invoked while compiling, for elements written with an at sign. A helper receives the element
as it is written and returns the nodes to compile in its place, or nothing.

Main statements: `find?_register_self` and `find?_register_of_ne`.
-/
import BlockTemplates.Markup.Tree
import BlockTemplates.Text.Quoted

namespace BlockTemplates

open Markup Text

abbrev Helper := Element → Option (List Node)

/-- passes the content on, so that content can be grouped under a name without markup of its own -/
def sectionHelper : Helper := fun e => e.content

/-- helpers by name -/
structure Registry where
  entries : List (String × Helper) := []

namespace Registry

/-- the registry with the helper `section` alone -/
def builtins : Registry := ⟨[("section", sectionHelper)]⟩

/-- add a helper, in place of one of the same name -/
def register (r : Registry) (name : String) (helper : Helper) : Registry :=
  ⟨(name, helper) :: r.entries.filter (·.1 != name)⟩

def find? (r : Registry) (name : String) : Option Helper := r.entries.lookup name

def contains (r : Registry) (name : String) : Bool := (r.find? name).isSome

/-- the names in ascending order -/
def names (r : Registry) : List String := (r.entries.map Prod.fst).mergeSort (fun a b => decide (a ≤ b))

/-- the registry in words -/
def describe (r : Registry) : String := "HelperRegistry \x7b helpers: " ++ quotedList r.names ++ " \x7d"

theorem find?_register_self (r : Registry) (name : String) (helper : Helper) :
    (r.register name helper).find? name = some helper := by
  simp [register, find?]

theorem find?_register_of_ne {r : Registry} {name other : String} (helper : Helper) (h : other ≠ name) :
    (r.register name helper).find? other = r.find? other := by
  obtain ⟨es⟩ := r
  simp only [register, find?, List.lookup_cons, beq_eq_false_iff_ne.2 h]
  induction es with
  | nil => rfl
  | cons p ps ih =>
    obtain ⟨n, f⟩ := p
    by_cases hn : n = name
    · simp [hn, List.lookup_cons, beq_eq_false_iff_ne.2 h, ih]
    · simp [hn, List.lookup_cons, ih]

end Registry

end BlockTemplates
