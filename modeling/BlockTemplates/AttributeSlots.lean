/-
Attribute slots: the attributes of an element in the order of their first definition. Setting a name that is there
already changes its value and keeps its place, so that descendants override attributes where they stand.

Main statements: `get?_set_self` and `get?_set_of_ne` (what is read after a change), `names_set` (the order of names).
-/
import BlockTemplates.Markup.Tree

namespace BlockTemplates

open Markup

/-- names with their values, which are absent for bare names -/
structure AttributeSlots where
  pairs : List (String × Option String) := []
deriving DecidableEq, Repr

namespace AttributeSlots

/-! ## Operations -/

def size (s : AttributeSlots) : Nat := s.pairs.length

def isEmpty (s : AttributeSlots) : Bool := s.pairs.isEmpty

/-- the names in their order -/
def names (s : AttributeSlots) : List String := s.pairs.map Prod.fst

/-- the place of a name -/
def position? (s : AttributeSlots) (name : String) : Option Nat := s.pairs.findIdx? (·.1 == name)

/-- the value of a name that is there -/
def get? (s : AttributeSlots) (name : String) : Option (Option String) := s.pairs.lookup name

/-- replace the value of a name where it stands, or add the pair at the end -/
def setIn (name : String) (value : Option String) : List (String × Option String) → List (String × Option String)
  | [] => [(name, value)]
  | p :: ps => if p.1 = name then (p.1, value) :: ps else p :: setIn name value ps

def set (s : AttributeSlots) (name : String) (value : Option String) : AttributeSlots := ⟨setIn name value s.pairs⟩

def setAttribute (s : AttributeSlots) (a : Attribute) : AttributeSlots := s.set a.name a.value

/-- the slots after setting one attribute after the other -/
def setAll (s : AttributeSlots) (as : List Attribute) : AttributeSlots := as.foldl setAttribute s

def ofList (as : List Attribute) : AttributeSlots := setAll {} as

/-! ## Laws -/

theorem get?_set_self (s : AttributeSlots) (name : String) (value : Option String) :
    (s.set name value).get? name = some value := by
  obtain ⟨ps⟩ := s
  simp only [set, get?]
  induction ps with
  | nil => simp [setIn]
  | cons p ps ih =>
    obtain ⟨n, v⟩ := p
    simp only [setIn]
    split
    · rename_i h; simp [h]
    · rename_i h
      rw [List.lookup_cons, ih]
      simp [beq_eq_false_iff_ne.2 (Ne.symm h)]

theorem get?_set_of_ne {s : AttributeSlots} {name other : String} (value : Option String) (h : other ≠ name) :
    (s.set name value).get? other = s.get? other := by
  obtain ⟨ps⟩ := s
  simp only [set, get?]
  induction ps with
  | nil => simp [setIn, List.lookup_cons, beq_eq_false_iff_ne.2 h]
  | cons p ps ih =>
    obtain ⟨n, v⟩ := p
    simp only [setIn]
    split
    · rename_i hp
      simp [List.lookup_cons, hp, beq_eq_false_iff_ne.2 h]
    · rw [List.lookup_cons, List.lookup_cons, ih]

theorem map_fst_setIn (name : String) (value : Option String) (ps : List (String × Option String)) :
    (setIn name value ps).map Prod.fst =
      if name ∈ ps.map Prod.fst then ps.map Prod.fst else ps.map Prod.fst ++ [name] := by
  induction ps with
  | nil => simp [setIn]
  | cons p ps ih =>
    by_cases h : p.1 = name
    · simp [setIn, h]
    · have h' : ¬ name = p.1 := fun e => h e.symm
      simp only [setIn, if_neg h, List.map_cons, List.mem_cons, h', false_or, ih]
      by_cases hm : name ∈ ps.map Prod.fst
      · simp only [if_pos hm]
      · simp only [if_neg hm, List.cons_append]

theorem names_set (s : AttributeSlots) (name : String) (value : Option String) :
    (s.set name value).names = if name ∈ s.names then s.names else s.names ++ [name] :=
  map_fst_setIn name value s.pairs

end AttributeSlots

end BlockTemplates
