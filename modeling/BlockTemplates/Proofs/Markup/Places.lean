/-
Nodes at any depth, and places in a tree. A tree is looked at as the list of all nodes in it, or of all elements; a
`Hole` is a place at any depth where nodes can stand, in the place of other nodes.

Main statements: `exists_fill_of_mem_elementsIn` (every element stands in a hole), `forall_allNodes_fill` (what holds of
all nodes is not changed by other nodes in a hole for which it holds) and `countP_fill` (elements are counted in the
hole and around it).
-/
import BlockTemplates.Markup.Tree

namespace BlockTemplates.Markup

/-! ## Nodes at any depth -/

mutual

/-- the node and those in it -/
def Node.all : Node → List Node
  | .element ⟨helper, tag, names, attributes, none⟩ => [.element ⟨helper, tag, names, attributes, none⟩]
  | .element ⟨helper, tag, names, attributes, some content⟩ =>
    .element ⟨helper, tag, names, attributes, some content⟩ :: allNodes content
  | .text value => [.text value]
  | .comment value multiline => [.comment value multiline]
  | .superCall call => [.superCall call]

/-- the nodes at any depth, each before those in it -/
def allNodes : List Node → List Node
  | [] => []
  | n :: ns => n.all ++ allNodes ns

end

def Node.element? : Node → Option Element
  | .element e => some e
  | _ => none

/-- the elements at any depth, each before those in it -/
def elementsIn (ns : List Node) : List Element := (allNodes ns).filterMap Node.element?

theorem all_element (e : Element) : (Node.element e).all = .element e :: allNodes (e.content.getD []) := by
  obtain ⟨helper, tag, names, attributes, content⟩ := e
  cases content with
  | none => simp only [Node.all, Option.getD_none, allNodes]
  | some content => simp only [Node.all, Option.getD_some]

theorem allNodes_element (e : Element) (ns : List Node) :
    allNodes (.element e :: ns) = .element e :: (allNodes (e.content.getD []) ++ allNodes ns) := by
  rw [allNodes, all_element, List.cons_append]

theorem allNodes_append (ns ns' : List Node) : allNodes (ns ++ ns') = allNodes ns ++ allNodes ns' := by
  induction ns with
  | nil => simp only [List.nil_append, allNodes]
  | cons n ns ih => simp only [List.cons_append, allNodes, ih, List.append_assoc]

theorem mem_elementsIn {e : Element} {ns : List Node} : e ∈ elementsIn ns ↔ .element e ∈ allNodes ns := by
  simp only [elementsIn, List.mem_filterMap]
  constructor
  · rintro ⟨n, hn, he⟩
    cases n with
    | element f =>
      cases he
      exact hn
    | _ => cases he
  · exact fun h => ⟨_, h, rfl⟩

@[simp] theorem elementsIn_nil : elementsIn [] = [] := rfl

@[simp] theorem elementsIn_text (value : String) (ns : List Node) : elementsIn (.text value :: ns) = elementsIn ns := by
  simp only [elementsIn, allNodes, Node.all, List.singleton_append, List.filterMap_cons, Node.element?]

@[simp] theorem elementsIn_comment (value : String) (multiline : Bool) (ns : List Node) :
    elementsIn (.comment value multiline :: ns) = elementsIn ns := by
  simp only [elementsIn, allNodes, Node.all, List.singleton_append, List.filterMap_cons, Node.element?]

@[simp] theorem elementsIn_superCall (call : SuperCall) (ns : List Node) :
    elementsIn (.superCall call :: ns) = elementsIn ns := by
  simp only [elementsIn, allNodes, Node.all, List.singleton_append, List.filterMap_cons, Node.element?]

@[simp] theorem elementsIn_element (e : Element) (ns : List Node) :
    elementsIn (.element e :: ns) = e :: (elementsIn (e.content.getD []) ++ elementsIn ns) := by
  simp only [elementsIn, allNodes_element, List.filterMap_cons, List.filterMap_append, Node.element?]

@[simp] theorem elementsIn_append (ns ns' : List Node) : elementsIn (ns ++ ns') = elementsIn ns ++ elementsIn ns' := by
  simp [elementsIn, allNodes_append]

theorem height_element (e : Element) : (Node.element e).height = nodesHeight (e.content.getD []) + 1 := by
  obtain ⟨helper, tag, names, attributes, content⟩ := e
  cases content with
  | none => simp only [Node.height, Option.getD_none, nodesHeight, Nat.zero_add]
  | some content => simp only [Node.height, Option.getD_some]

theorem height_le_of_mem_elementsIn {f : Element} {ns : List Node} (h : f ∈ elementsIn ns) :
    (Node.element f).height ≤ nodesHeight ns := by
  induction ns using nodes_induction with
  | nil => simp at h
  | text value ns ih =>
    have hle := ih (by simpa using h)
    simp only [nodesHeight]
    omega
  | comment value multiline ns ih =>
    have hle := ih (by simpa using h)
    simp only [nodesHeight]
    omega
  | superCall call ns ih =>
    have hle := ih (by simpa using h)
    simp only [nodesHeight]
    omega
  | element e ns ihc ih =>
    have hcontent := height_element e
    simp only [elementsIn_element, List.mem_cons, List.mem_append] at h
    simp only [nodesHeight]
    rcases h with rfl | h | h
    · omega
    · have hle := ihc h
      omega
    · have hle := ih h
      omega

/-! ## Holes -/

/-- a place for nodes, with all that stands around it; the own content of the elements around it does not matter -/
inductive Hole where
  | among (before after : List Node)
  | inside (before : List Node) (e : Element) (hole : Hole) (after : List Node)

namespace Hole

/-- the tree with the nodes in the hole -/
def fill : Hole → List Node → List Node
  | among before after, ns => before ++ (ns ++ after)
  | inside before e hole after, ns => before ++ .element { e with content := some (hole.fill ns) } :: after

/-- whether the hole is all that stands in an element with a name and tags -/
def isOnlyContent : Hole → Bool
  | among _ _ => false
  | inside _ e (among before after) _ => e.name.isSome && !e.isHelper && before.isEmpty && after.isEmpty
  | inside _ _ hole _ => hole.isOnlyContent

theorem fill_ne_nil {hole : Hole} {ns : List Node} (h : ns ≠ [] ∨ hole ≠ among [] []) : hole.fill ns ≠ [] := by
  cases hole with
  | among before after =>
    simp only [ne_eq, among.injEq, not_and] at h
    simp only [fill, ne_eq, List.append_eq_nil_iff, not_and]
    intro hbefore hns hafter
    exact h.elim (fun h => h hns) fun h => h hbefore hafter
  | inside before e hole after => simp [fill]

end Hole

/-- every element of a tree stands in a hole of it -/
theorem exists_fill_of_mem_elementsIn {e : Element} {ns : List Node} (h : e ∈ elementsIn ns) :
    ∃ hole : Hole, hole.fill [.element e] = ns := by
  have hbehind {n : Node} {ns : List Node} (h : ∃ hole : Hole, hole.fill [.element e] = ns) :
      ∃ hole : Hole, hole.fill [.element e] = n :: ns := by
    obtain ⟨hole, rfl⟩ := h
    cases hole with
    | among before after => exact ⟨.among (n :: before) after, rfl⟩
    | inside before f hole after => exact ⟨.inside (n :: before) f hole after, rfl⟩
  induction ns using nodes_induction with
  | nil => simp at h
  | text value ns ih => exact hbehind (ih (by simpa using h))
  | comment value multiline ns ih => exact hbehind (ih (by simpa using h))
  | superCall call ns ih => exact hbehind (ih (by simpa using h))
  | element f ns ihc ih =>
    simp only [elementsIn_element, List.mem_cons, List.mem_append] at h
    rcases h with rfl | h | h
    · exact ⟨.among [] ns, rfl⟩
    · obtain ⟨hole, hhole⟩ := ihc h
      obtain ⟨helper, tag, names, attributes, content⟩ := f
      cases content with
      | none => simp at h
      | some content =>
        refine ⟨.inside [] ⟨helper, tag, names, attributes, none⟩ hole ns, ?_⟩
        simp only [Hole.fill, hhole, Option.getD_some, List.nil_append]
    · exact hbehind (ih h)

theorem mem_allNodes_fill {n : Node} {ns : List Node} (hole : Hole) (h : n ∈ allNodes ns) :
    n ∈ allNodes (hole.fill ns) := by
  induction hole with
  | among before after => simp [Hole.fill, allNodes_append, h]
  | inside before e hole after ih => simp [Hole.fill, allNodes_append, allNodes_element, ih]

/-- what holds of all nodes, whatever elements contain, still does with other nodes in a hole for which it holds -/
theorem forall_allNodes_fill {P : Node → Prop} {hole : Hole} {ns ns' : List Node}
    (hP : ∀ (e : Element) (c c' : List Node), P (.element { e with content := some c }) →
      P (.element { e with content := some c' }))
    (hns : (∀ n ∈ allNodes ns, P n) → ∀ n ∈ allNodes ns', P n) (h : ∀ n ∈ allNodes (hole.fill ns), P n) :
    ∀ n ∈ allNodes (hole.fill ns'), P n := by
  induction hole with
  | among before after =>
    simp only [Hole.fill, allNodes_append, List.forall_mem_append] at h ⊢
    exact ⟨h.1, hns h.2.1, h.2.2⟩
  | inside before e hole after ih =>
    simp only [Hole.fill, allNodes_append, allNodes_element, List.forall_mem_append, List.forall_mem_cons,
      Option.getD_some] at h ⊢
    exact ⟨h.1, hP e _ _ h.2.1, ih h.2.2.1, h.2.2.2⟩

/-- the same for what holds of all elements -/
theorem forall_elementsIn_fill {P : Element → Prop} {hole : Hole} {ns ns' : List Node}
    (hP : ∀ (e : Element) (c c' : List Node), P { e with content := some c } → P { e with content := some c' })
    (hns : (∀ e ∈ elementsIn ns, P e) → ∀ e ∈ elementsIn ns', P e) (h : ∀ e ∈ elementsIn (hole.fill ns), P e) :
    ∀ e ∈ elementsIn (hole.fill ns'), P e := by
  have hiff (ns : List Node) :
      (∀ e ∈ elementsIn ns, P e) ↔ ∀ n ∈ allNodes ns, ∀ e, n = .element e → P e := by
    constructor
    · rintro h _ hn e rfl
      exact h e (mem_elementsIn.2 hn)
    · exact fun h e he => h _ (mem_elementsIn.1 he) e rfl
  rw [hiff] at h ⊢
  refine forall_allNodes_fill ?_ (fun h => (hiff ns').1 (hns ((hiff ns).2 h))) h
  rintro e c c' he _ ⟨⟩
  exact hP e c c' (he _ rfl)

/-- elements are counted in the hole and around it, where their content does not count -/
theorem countP_fill {p : Element → Bool} (hole : Hole) (ns : List Node)
    (hp : ∀ (e : Element) (c c' : List Node), p { e with content := some c } = p { e with content := some c' }) :
    (elementsIn (hole.fill ns)).countP p = (elementsIn (hole.fill [])).countP p + (elementsIn ns).countP p := by
  induction hole with
  | among before after =>
    simp only [Hole.fill, elementsIn_append, List.countP_append, elementsIn_nil, List.countP_nil]
    omega
  | inside before e hole after ih =>
    simp only [Hole.fill, elementsIn_append, elementsIn_element, List.countP_append, List.countP_cons,
      Option.getD_some, ih, hp e (hole.fill ns) (hole.fill [])]
    omega

/-- an element that is the only one of its kind has no others of it around it or in it -/
theorem forall_not_of_countP_eq_one {p : Element → Bool} {hole : Hole} {e : Element}
    (hp : ∀ (e : Element) (c c' : List Node), p { e with content := some c } = p { e with content := some c' })
    (he : p e = true) (h : (elementsIn (hole.fill [.element e])).countP p = 1) :
    (∀ f ∈ elementsIn (hole.fill []), ¬ p f = true) ∧ ∀ f ∈ elementsIn (e.content.getD []), ¬ p f = true := by
  rw [countP_fill hole _ hp, elementsIn_element, List.countP_cons_of_pos he, elementsIn_nil, List.append_nil] at h
  constructor
  · exact List.countP_eq_zero.1 (by omega)
  · exact List.countP_eq_zero.1 (by omega)

end BlockTemplates.Markup
