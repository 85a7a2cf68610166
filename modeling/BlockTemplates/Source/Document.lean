/-
Documents. A document is a run of comments, then the block name if one is declared, then content: texts, comments and
elements, inside the braces of an element also super calls. `parse` reads a whole source.

Main statement: `readItem_isRest` (every item but the end takes at least one character off), which is why reading ends.
-/
import BlockTemplates.Source.Head

namespace BlockTemplates.Source

open Markup

/-! ## Items -/

/-- the next thing in a run of content -/
inductive Item where
  /-- the end of the source -/
  | finish
  /-- a closing brace -/
  | close
  /-- a node that is complete -/
  | node (n : Node)
  /-- an element whose content, if it has any, comes next -/
  | head (h : Head)

/-- read the next item, without the content of elements -/
def readItem (inBraces : Bool) (s : List Char) : Except Fault (Item × List Char) :=
  match skipSpaces s with
  | [] => .ok (.finish, [])
  | c :: r =>
    if isQuote c then do
      let (value, r) ← readLiteral (c :: r)
      return (.node (.text value), r)
    else if atComment (c :: r) then do
      let (comment, r) ← readComment (c :: r)
      return (.node (.comment comment.value comment.multiline), r)
    else if c = '\x7d' ∧ inBraces then .ok (.close, r)
    else
      match if inBraces then readSuperCall (c :: r) else none with
      | some (call, r) => .ok (.node (.superCall call), r)
      | none => do
        let (h, r) ← readHead (c :: r)
        return (.head h, r)

theorem readItem_isRest {inBraces : Bool} {s r : List Char} {i : Item} (h : readItem inBraces s = .ok (i, r))
    (hi : i ≠ .finish) : IsRest r s := by
  unfold readItem at h
  split at h
  · simp only [Except.ok.injEq, Prod.mk.injEq] at h
    exact absurd h.1.symm hi
  · rename_i c t hs
    refine IsRest.trans_suffix ?_ (hs ▸ skipSpaces_suffix s)
    split at h
    · cases hl : readLiteral (c :: t) with
      | error f => simp [hl, bind, Except.bind] at h
      | ok p =>
        simp only [hl, bind, Except.bind, pure, Except.pure, Except.ok.injEq, Prod.mk.injEq] at h
        rw [← h.2]
        exact readLiteral_isRest (show _ = Except.ok (p.1, p.2) from hl)
    · split at h
      · cases hl : readComment (c :: t) with
        | error f => simp [hl, bind, Except.bind] at h
        | ok p =>
          simp only [hl, bind, Except.bind, pure, Except.pure, Except.ok.injEq, Prod.mk.injEq] at h
          rw [← h.2]
          exact readComment_isRest (show _ = Except.ok (p.1, p.2) from hl)
      · split at h
        · simp only [Except.ok.injEq, Prod.mk.injEq] at h
          rw [← h.2]
          exact .of_cons List.suffix_rfl
        · split at h
          · rename_i call u hc
            simp only [Except.ok.injEq, Prod.mk.injEq] at h
            rw [← h.2]
            cases inBraces with
            | true => exact readSuperCall_isRest hc
            | false => simp at hc
          · cases hl : readHead (c :: t) with
            | error f => simp [hl, bind, Except.bind] at h
            | ok p =>
              simp only [hl, bind, Except.bind, pure, Except.pure, Except.ok.injEq, Prod.mk.injEq] at h
              rw [← h.2]
              exact readHead_isRest (show _ = Except.ok (p.1, p.2) from hl)

/-! ## Content -/

/-- what reading content gives: the nodes, and what is left of the text -/
abbrev Content (s : List Char) := Except Fault { p : List Node × List Char // p.2 <:+ s }

/-- read content; `opening` is the text from the opening brace on, if there is one. The closing brace is taken off. -/
def readContent (opening : Option (List Char)) (s : List Char) : Content s :=
  match _h : readItem opening.isSome s with
  | .error f => .error f
  | .ok (.finish, _) =>
    match opening with
    | some brace => .error ⟨.missingClosingBrace, brace⟩
    | none => .ok ⟨([], []), List.nil_suffix⟩
  | .ok (.close, r) => .ok ⟨([], r), (readItem_isRest _h nofun).1⟩
  | .ok (.node n, r) =>
    have hr := readItem_isRest _h nofun
    match readContent opening r with
    | .error f => .error f
    | .ok ⟨(ns, r), hns⟩ => .ok ⟨(n :: ns, r), hns.trans hr.1⟩
  | .ok (.head e, '\x7b' :: r) =>
    have hr : IsRest r s := .suffix_trans (List.suffix_cons _ _) (readItem_isRest _h nofun)
    match readContent (some ('\x7b' :: r)) r with
    | .error f => .error f
    | .ok ⟨(content, u), hu⟩ =>
      have hu : IsRest u s := .suffix_trans hu hr
      match readContent opening u with
      | .error f => .error f
      | .ok ⟨(ns, r), hns⟩ => .ok ⟨(.element (e.element (some content)) :: ns, r), hns.trans hu.1⟩
  | .ok (.head e, r) =>
    have hr := readItem_isRest _h nofun
    match readContent opening r with
    | .error f => .error f
    | .ok ⟨(ns, r), hns⟩ => .ok ⟨(.element (e.element none) :: ns, r), hns.trans hr.1⟩
termination_by s.length
decreasing_by
  · exact hr.2
  · exact hr.2
  · exact hu.2
  · exact hr.2

/-! ## Documents -/

/-- the comments at the start of a document, with the spaces around them -/
def readLeadingComments (s : List Char) : Except Fault (List Node × List Char) :=
  if atComment (skipSpaces s) then
    match _h : readComment (skipSpaces s) with
    | .error f => .error f
    | .ok (comment, r) =>
      match readLeadingComments r with
      | .error f => .error f
      | .ok (ns, r) => .ok (.comment comment.value comment.multiline :: ns, r)
  else .ok ([], skipSpaces s)
termination_by s.length
decreasing_by exact ((readComment_isRest _h).trans_suffix (skipSpaces_suffix s)).2

/-- the declaration of the block name, if there is one -/
def readBlockName (s : List Char) : Except Fault (Option String × List Char) :=
  match s with
  | '#' :: r =>
    match readName .block r with
    | some (name, r) => .ok (some name, r)
    | none => .error ⟨.invalidBlockName, r⟩
  | s => .ok (none, s)

/-- read a whole document -/
def readDocument (s : List Char) : Except Fault Block := do
  let (comments, r) ← readLeadingComments s
  let (name, r) ← readBlockName r
  let ⟨(content, _), _⟩ ← readContent none r
  return ⟨name, comments ++ content⟩

/-- the tree of a source, or what is wrong with it and where -/
def parse (source : String) : Except ParseError Block :=
  match readDocument source.toList with
  | .ok block => .ok block
  | .error f => .error (f.locate source.toList)

end BlockTemplates.Source
