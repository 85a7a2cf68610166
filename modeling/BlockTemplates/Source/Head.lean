/-
The head of an element: an at sign for helpers, the tag, a slash and the names, the attribute list. Tag or names have to
be there. A name list that starts with a comma has no identity. A slash that starts a comment starts no names.

Main statement: `readHead_isRest`.
-/
import BlockTemplates.Source.AttributeList

namespace BlockTemplates.Source

open Markup

/-- an element without its content -/
structure Head where
  isHelper : Bool
  tagName : Option String
  names : Option (List (Option String))
  attributes : Option Attributes
deriving DecidableEq, Repr

/-- the element with the given content -/
def Head.element (h : Head) (content : Option (List Node)) : Element :=
  ⟨h.isHelper, h.tagName, h.names, h.attributes, content⟩

/-! ## Names -/

/-- names separated by commas, with the spaces that follow them -/
def readNames (s : List Char) : Except Fault (List String × List Char) :=
  match _h : readName .element s with
  | none => .error ⟨.expectedElementName, s⟩
  | some (name, r) =>
    match _hs : skipSpaces r with
    | ',' :: r =>
      match readNames (skipSpaces r) with
      | .error f => .error f
      | .ok (names, r) => .ok (name :: names, r)
    | r => .ok ([name], r)
termination_by s.length
decreasing_by
  exact (IsRest.suffix_trans ((skipSpaces_suffix _).trans ((List.suffix_cons _ _).trans (_hs ▸ skipSpaces_suffix _)))
    (readName_isRest _h)).2

/-- the name list after a slash -/
def readNameList (s : List Char) : Except Fault (List (Option String) × List Char) :=
  match skipSpaces s with
  | ',' :: r => do
    let (names, r) ← readNames (skipSpaces r)
    return (none :: names.map some, r)
  | r => do
    let (names, r) ← readNames r
    return (names.map some, r)

theorem readNames_isRest {s r : List Char} {names : List String} (h : readNames s = .ok (names, r)) : IsRest r s := by
  fun_induction readNames s generalizing names r with
  | case1 => simp at h
  | case2 => simp at h
  | case3 s name t hn u hs names' r' _ ih =>
    simp only [Except.ok.injEq, Prod.mk.injEq] at h
    rw [← h.2]
    have hu : skipSpaces u <:+ t :=
      (skipSpaces_suffix u).trans ((List.suffix_cons _ _).trans (hs ▸ skipSpaces_suffix t))
    exact (ih ‹_›).trans (.suffix_trans hu (readName_isRest hn))
  | case4 s name t hn =>
    simp only [Except.ok.injEq, Prod.mk.injEq] at h
    rw [← h.2]
    exact .suffix_trans (skipSpaces_suffix t) (readName_isRest hn)

theorem readNameList_isRest {s r : List Char} {names : List (Option String)}
    (h : readNameList s = .ok (names, r)) : IsRest r s := by
  unfold readNameList at h
  split at h
  · rename_i t hs
    have ht : skipSpaces t <:+ s :=
      (skipSpaces_suffix t).trans ((List.suffix_cons _ _).trans (hs ▸ skipSpaces_suffix s))
    cases hn : readNames (skipSpaces t) with
    | error f => simp [hn, bind, Except.bind] at h
    | ok p =>
      simp only [hn, bind, Except.bind, pure, Except.pure, Except.ok.injEq, Prod.mk.injEq] at h
      rw [← h.2]
      exact (readNames_isRest (show _ = Except.ok (p.1, p.2) from hn)).trans_suffix ht
  · cases hn : readNames (skipSpaces s) with
    | error f => simp [hn, bind, Except.bind] at h
    | ok p =>
      simp only [hn, bind, Except.bind, pure, Except.pure, Except.ok.injEq, Prod.mk.injEq] at h
      rw [← h.2]
      exact (readNames_isRest (show _ = Except.ok (p.1, p.2) from hn)).trans_suffix (skipSpaces_suffix s)

/-! ## Heads -/

/-- the tag, if there is one, and the spaces after it -/
def readTag (s : List Char) : Option String × List Char :=
  match readName .tag s with
  | some (tag, r) => (some tag, skipSpaces r)
  | none => (none, s)

/-- the name list, if there is one -/
def readNamePart (s : List Char) : Except Fault (Option (List (Option String)) × List Char) :=
  match s with
  | '/' :: r =>
    if atComment s then .ok (none, s)
    else do
      let (names, r) ← readNameList r
      return (some names, r)
  | s => .ok (none, s)

/-- the attribute list, if there is one, and the spaces after it -/
def readAttributePart (s : List Char) : Except Fault (Option Attributes × List Char) :=
  match s with
  | '(' :: r => do
    let (attributes, r) ← readAttributes r
    return (some attributes, skipSpaces r)
  | s => .ok (none, s)

/-- the at sign of a helper, if it is there -/
def readHelperMark : List Char → Bool × List Char
  | '@' :: s => (true, s)
  | s => (false, s)

/-- read the head of an element -/
def readHead (s : List Char) : Except Fault (Head × List Char) := do
  let (isHelper, r) := readHelperMark s
  let (tagName, r) := readTag r
  let (names, r) ← readNamePart r
  if tagName.isNone && names.isNone then throw ⟨.expectedElement, s⟩
  let (attributes, r) ← readAttributePart r
  return (⟨isHelper, tagName, names, attributes⟩, r)

theorem readTag_isRest {s r : List Char} {tag : String} (h : readTag s = (some tag, r)) : IsRest r s := by
  unfold readTag at h
  split at h
  · rename_i hn
    simp only [Prod.mk.injEq] at h
    rw [← h.2]
    exact .suffix_trans (skipSpaces_suffix _) (readName_isRest hn)
  · simp at h

theorem readTag_suffix (s : List Char) : (readTag s).2 <:+ s := by
  cases h : readTag s with
  | mk tag r =>
    cases tag with
    | some tag => exact (readTag_isRest h).1
    | none =>
      unfold readTag at h
      split at h
      · simp at h
      · simp only [Prod.mk.injEq] at h
        exact h.2 ▸ List.suffix_rfl

theorem readNamePart_isRest {s r : List Char} {names : List (Option String)}
    (h : readNamePart s = .ok (some names, r)) : IsRest r s := by
  unfold readNamePart at h
  split at h
  · rename_i t
    split at h
    · simp at h
    · cases hn : readNameList t with
      | error f => simp [hn, bind, Except.bind] at h
      | ok p =>
        simp only [hn, bind, Except.bind, pure, Except.pure, Except.ok.injEq, Prod.mk.injEq] at h
        rw [← h.2]
        exact (readNameList_isRest (show _ = Except.ok (p.1, p.2) from hn)).trans (.of_cons List.suffix_rfl)
  · simp at h

theorem readNamePart_none {s r : List Char} (h : readNamePart s = .ok (none, r)) : r = s := by
  unfold readNamePart at h
  split at h
  · rename_i t
    split at h
    · simp only [Except.ok.injEq, Prod.mk.injEq] at h
      exact h.2.symm
    · cases hn : readNameList t with
      | error f => simp [hn, bind, Except.bind] at h
      | ok p => simp [hn, bind, Except.bind, pure, Except.pure] at h
  · simp only [Except.ok.injEq, Prod.mk.injEq] at h
    exact h.2.symm

theorem readAttributePart_suffix {s r : List Char} {a : Option Attributes} (h : readAttributePart s = .ok (a, r)) :
    r <:+ s := by
  unfold readAttributePart at h
  split at h
  · rename_i t
    cases ha : readAttributes t with
    | error f => simp [ha, bind, Except.bind] at h
    | ok p =>
      simp only [ha, bind, Except.bind, pure, Except.pure, Except.ok.injEq, Prod.mk.injEq] at h
      rw [← h.2]
      have hp := readAttributes_isRest (show _ = Except.ok (p.1, p.2) from ha)
      exact (skipSpaces_suffix _).trans (hp.1.trans (List.suffix_cons _ _))
  · simp only [Except.ok.injEq, Prod.mk.injEq] at h
    exact h.2 ▸ List.suffix_rfl

theorem readHelperMark_suffix (s : List Char) : (readHelperMark s).2 <:+ s := by
  unfold readHelperMark
  split
  · exact List.suffix_cons _ _
  · exact List.suffix_rfl

theorem readHead_isRest {s r : List Char} {h : Head} (hr : readHead s = .ok (h, r)) : IsRest r s := by
  have hm := readHelperMark_suffix s
  unfold readHead at hr
  generalize readHelperMark s = m at hr hm
  obtain ⟨helper, t⟩ := m
  have ht := readTag_suffix t
  cases htag : readTag t with
  | mk tag u =>
    rw [htag] at ht
    simp only [htag] at hr
    cases hn : readNamePart u with
    | error f => simp [hn, bind, Except.bind] at hr
    | ok p =>
      obtain ⟨names, v⟩ := p
      simp only [hn, bind, Except.bind] at hr
      split at hr
      · simp [throw, throwThe, MonadExceptOf.throw] at hr
      · rename_i hsome
        have hv : IsRest v s := by
          cases tag with
          | some tag =>
            have hu : IsRest u s := (readTag_isRest htag).trans_suffix hm
            cases names with
            | some names => exact (readNamePart_isRest hn).trans hu
            | none => exact readNamePart_none hn ▸ hu
          | none =>
            cases names with
            | some names => exact (readNamePart_isRest hn).trans_suffix (ht.trans hm)
            | none => simp at hsome
        cases ha : readAttributePart v with
        | error f => simp [ha] at hr
        | ok q =>
          simp only [ha, pure, Except.pure, Except.ok.injEq, Prod.mk.injEq] at hr
          rw [← hr.2]
          exact .suffix_trans (readAttributePart_suffix (show _ = Except.ok (q.1, q.2) from ha)) hv

end BlockTemplates.Source
