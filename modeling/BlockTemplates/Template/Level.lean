/-
Compiled templates. A template is a chain of levels: its own, then that of the template it extends, and so on to the
root. What a name means is decided by the nearest level that says something about it.

Main statements: `findBody_suffix` (a definition is found on a level of the chain, and what it is found with is the part
of the chain from that level on) and `findBody_isSome_iff` (a name is found exactly if some level defines it).
-/
import BlockTemplates.AttributeSlots
import BlockTemplates.Render.Op

namespace BlockTemplates

open Render

/-! ## Levels -/

/-- the operations of one element -/
structure Body where
  /-- the tags with the attributes, around the content -/
  render : List Op
  content : List Op
deriving DecidableEq, Repr

/-- what one document contributes -/
structure Level where
  blockNames : List String
  /-- what stands before element names in class tokens: this level's own first, then those of its ancestors -/
  prefixes : List String
  /-- top-level operations, which only the root has -/
  root : List Op
  /-- the elements defined here, the latest definition first -/
  elements : List (String × Body)
  /-- the tag first given to each name -/
  tagNames : List (String × String)
  /-- the resolved attributes of each name that has any, the latest first -/
  attributeLists : List (String × AttributeSlots)
deriving DecidableEq, Repr

/-- whether the level itself defines an element -/
def Level.defines (l : Level) (name : String) : Bool := (l.elements.lookup name).isSome

/-! ## Chains -/

/-- the nearest definition of an element, with the part of the chain that starts at the defining level -/
def findBody (name : String) : List Level → Option (List Level × Body)
  | [] => none
  | l :: ls =>
    match l.elements.lookup name with
    | some body => some (l :: ls, body)
    | none => findBody name ls

/-- the nearest tag of a name -/
def findTag (name : String) (chain : List Level) : Option String := chain.findSome? (·.tagNames.lookup name)

/-- the nearest attributes of a name -/
def findSlots (name : String) (chain : List Level) : Option AttributeSlots :=
  chain.findSome? (·.attributeLists.lookup name)

theorem findBody_suffix {name : String} {chain owner : List Level} {b : Body}
    (h : findBody name chain = some (owner, b)) :
    owner <:+ chain ∧ ∃ l ls, owner = l :: ls ∧ l.elements.lookup name = some b := by
  induction chain with
  | nil => simp [findBody] at h
  | cons l ls ih =>
    simp only [findBody] at h
    split at h
    · rename_i b' hb
      simp only [Option.some.injEq, Prod.mk.injEq] at h
      obtain ⟨rfl, rfl⟩ := h
      exact ⟨List.suffix_rfl, l, ls, rfl, hb⟩
    · exact ⟨(ih h).1.trans (List.suffix_cons l ls), (ih h).2⟩

theorem findBody_isSome_iff {name : String} {chain : List Level} :
    (findBody name chain).isSome = true ↔ ∃ l ∈ chain, l.defines name = true := by
  induction chain with
  | nil => simp [findBody]
  | cons l ls ih =>
    simp only [findBody, List.mem_cons, exists_eq_or_imp, Level.defines]
    cases h : l.elements.lookup name with
    | some b => simp
    | none => simpa [Level.defines] using ih

/-! ## Templates -/

structure Template where
  leaf : Level
  /-- the levels it extends, nearest first -/
  ancestors : List Level
deriving DecidableEq, Repr

namespace Template

/-- the own level and those it extends -/
def chain (t : Template) : List Level := t.leaf :: t.ancestors

/-- the top-level operations of the root -/
def rootOps (t : Template) : List Op := (t.ancestors.getLast?.getD t.leaf).root

/-- the root alone, as the part of the chain that owns the top-level operations -/
def rootOwner (t : Template) : List Level := [t.ancestors.getLast?.getD t.leaf]

/-- the first block name -/
def blockName? (t : Template) : Option String := t.leaf.blockNames.head?

/-- the first block names of the templates it extends, nearest first -/
def parentNames (t : Template) : List (Option String) := t.ancestors.map (·.blockNames.head?)

/-- a bound on how deep elements and contents can be nested in a rendering that ends -/
def depthBound (t : Template) : Nat := ((t.chain.flatMap (·.elements)).length + 1) * (t.chain.length + 2) + 1

end Template

end BlockTemplates
