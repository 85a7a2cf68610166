/-
Equality of trees is decidable. Nodes and elements contain each other through lists, so the comparison is written out;
it is structural, and concrete trees can be compared by `decide`.

Main statement: `Node.same_iff` (the comparison is equality).
-/
import BlockTemplates.Markup.Tree

namespace BlockTemplates.Markup

/-! ## The comparison -/

mutual

/-- whether two nodes are the same -/
def Node.same : Node → Node → Bool
  | .element ⟨h, t, n, a, none⟩, .element ⟨h', t', n', a', none⟩ => (h, t, n, a) == (h', t', n', a')
  | .element ⟨h, t, n, a, some c⟩, .element ⟨h', t', n', a', some c'⟩ =>
    (h, t, n, a) == (h', t', n', a') && sameNodes c c'
  | .text v, .text v' => v == v'
  | .comment v m, .comment v' m' => (v, m) == (v', m')
  | .superCall c, .superCall c' => c == c'
  | _, _ => false

/-- whether two lists hold the same nodes in the same order -/
def sameNodes : List Node → List Node → Bool
  | [], [] => true
  | n :: ns, n' :: ns' => n.same n' && sameNodes ns ns'
  | _, _ => false

end

/-! ## It is equality -/

mutual

theorem Node.same_iff : ∀ a b : Node, a.same b = true ↔ a = b
  | .element ⟨h, t, n, a, none⟩, b => by
    cases b with
    | element e => obtain ⟨h', t', n', a', c'⟩ := e; cases c' <;> simp [Node.same]
    | _ => simp [Node.same]
  | .element ⟨h, t, n, a, some c⟩, b => by
    cases b with
    | element e =>
      obtain ⟨h', t', n', a', c'⟩ := e
      cases c' with
      | none => simp [Node.same]
      | some c' => simp [Node.same, sameNodes_iff c c', and_assoc]
    | _ => simp [Node.same]
  | .text v, b => by cases b <;> simp [Node.same]
  | .comment v m, b => by cases b <;> simp [Node.same]
  | .superCall c, b => by cases b <;> simp [Node.same]

theorem sameNodes_iff : ∀ as bs : List Node, sameNodes as bs = true ↔ as = bs
  | [], bs => by cases bs <;> simp [sameNodes]
  | a :: as, bs => by
    cases bs with
    | nil => simp [sameNodes]
    | cons b bs => simp [sameNodes, Node.same_iff a b, sameNodes_iff as bs]

end

instance : DecidableEq Node := fun a b => decidable_of_iff _ (Node.same_iff a b)

instance : DecidableEq Element := fun a b =>
  decidable_of_iff (Node.element a = Node.element b) (by simp)

deriving instance DecidableEq for Block

end BlockTemplates.Markup
