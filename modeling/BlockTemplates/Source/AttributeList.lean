/-
Attribute lists. Between parentheses stand attributes, separated by commas, and among them at most one super call that
counts as such (a further one is read as an attribute's name). Gaps may stand between all parts, except that after the
equals sign only spaces are skipped: what follows is a literal, or a bare value that runs to the end of the line, the
next comma or the closing parenthesis and is trimmed.

Main statement: `readAttributes_isRest`.
-/
import BlockTemplates.Source.Literal
import BlockTemplates.Source.Name

namespace BlockTemplates.Source

open Text Markup

/-! ## Values -/

/-- whether the character ends a bare value -/
def endsBareValue (c : Char) : Bool := isLineEnd c || c == ',' || c == ')'

/-- a value without quotes -/
def readBareValue (s : List Char) : Except Fault (String × List Char) :=
  match s.dropWhile (!endsBareValue ·) with
  | [] => .error ⟨.unterminatedAttribute, s⟩
  | r => .ok (String.ofList (trim (s.takeWhile (!endsBareValue ·))), r)

theorem readBareValue_suffix {s r : List Char} {v : String} (h : readBareValue s = .ok (v, r)) : r <:+ s := by
  unfold readBareValue at h
  split at h
  · simp at h
  · simp only [Except.ok.injEq, Prod.mk.injEq] at h
    rw [← h.2]
    exact List.dropWhile_suffix _

/-- the value after an equals sign -/
def readValue (s : List Char) : Except Fault (String × List Char) :=
  match skipSpaces s with
  | [] => readBareValue []
  | c :: r => if isQuote c then readLiteral (c :: r) else readBareValue (c :: r)

theorem readValue_suffix {s r : List Char} {v : String} (h : readValue s = .ok (v, r)) : r <:+ s := by
  unfold readValue at h
  split at h
  · exact (readBareValue_suffix h).trans (List.nil_suffix)
  · rename_i c t hs
    refine List.IsSuffix.trans ?_ (hs ▸ skipSpaces_suffix s)
    split at h
    · exact (readLiteral_isRest h).1
    · exact readBareValue_suffix h

/-! ## Entries -/

/-- what stands between two commas -/
inductive Entry where
  | superCall (call : SuperCall)
  | setting (attr : Attribute)
deriving DecidableEq, Repr

/-- an attribute with the gap that follows it -/
def readAttribute (s : List Char) : Except Fault (Attribute × List Char) :=
  match readName .attr s with
  | none => .error ⟨.invalidAttributeName, s⟩
  | some (name, r) => do
    match ← skipGap r with
    | '=' :: r =>
      let (value, r) ← readValue r
      let r ← skipGap r
      return (⟨name, some value⟩, r)
    | r => return (⟨name, none⟩, r)

/-- an entry with the gap that follows it -/
def readEntry (superAllowed : Bool) (s : List Char) : Except Fault (Entry × List Char) :=
  match if superAllowed then readSuperCall s else none with
  | some (call, r) => do return (.superCall call, ← skipGap r)
  | none => do
    let (a, r) ← readAttribute s
    return (.setting a, r)

theorem readSuperCall_isRest {s r : List Char} {c : SuperCall} (h : readSuperCall s = some (c, r)) : IsRest r s := by
  have hlen := readSuperCall_length h
  have hpos : 0 < superCallLength c := by unfold superCallLength; split <;> omega
  refine ⟨?_, by omega⟩
  unfold readSuperCall at h
  split at h
  · simp only [Option.some.injEq, Prod.mk.injEq] at h
    rw [← h.2]
    exact ⟨['s', 'u', 'p', 'e', 'r', '!'], rfl⟩
  · rename_i t
    split at h
    · rename_i name u hn
      simp only [Option.some.injEq, Prod.mk.injEq] at h
      rw [← h.2, (readName_eq_some hn).2.2]
      exact ⟨['s', 'u', 'p', 'e', 'r', '.'] ++ name.toList ++ ['!'], by simp⟩
    · simp at h
  · simp at h

theorem readName_isRest {k : NameKind} {s r : List Char} {n : String} (h : readName k s = some (n, r)) :
    IsRest r s := by
  obtain ⟨_, hne, hs⟩ := readName_eq_some h
  rw [hs]
  exact .append hne

theorem readAttribute_isRest {s r : List Char} {a : Attribute} (h : readAttribute s = .ok (a, r)) : IsRest r s := by
  unfold readAttribute at h
  split at h
  · simp at h
  · rename_i name t hn
    refine IsRest.suffix_trans ?_ (readName_isRest hn)
    cases hg : skipGap t with
    | error f => simp [hg, bind, Except.bind] at h
    | ok u =>
      have hu := skipGap_suffix hg
      simp only [hg, bind, Except.bind] at h
      split at h
      · rename_i w
        have hw : w <:+ t := (List.suffix_cons _ w).trans hu
        cases hv : readValue w with
        | error f => simp [hv] at h
        | ok p =>
          have hp := (readValue_suffix (show _ = Except.ok (p.1, p.2) from hv)).trans hw
          simp only [hv] at h
          cases hq : skipGap p.2 with
          | error f => simp [hq] at h
          | ok q =>
            simp only [hq, pure, Except.pure, Except.ok.injEq, Prod.mk.injEq] at h
            rw [← h.2]
            exact (skipGap_suffix hq).trans hp
      · simp only [pure, Except.pure, Except.ok.injEq, Prod.mk.injEq] at h
        rw [← h.2]
        exact hu

theorem readEntry_isRest {allowed : Bool} {s r : List Char} {e : Entry} (h : readEntry allowed s = .ok (e, r)) :
    IsRest r s := by
  unfold readEntry at h
  split at h
  · rename_i call t hs
    have ht : IsRest t s := by
      cases allowed with
      | true => exact readSuperCall_isRest hs
      | false => simp at hs
    cases hg : skipGap t with
    | error f => simp [hg, bind, Except.bind] at h
    | ok u =>
      simp only [hg, bind, Except.bind, pure, Except.pure, Except.ok.injEq, Prod.mk.injEq] at h
      rw [← h.2]
      exact .suffix_trans (skipGap_suffix hg) ht
  · cases ha : readAttribute s with
    | error f => simp [ha, bind, Except.bind] at h
    | ok p =>
      simp only [ha, bind, Except.bind, pure, Except.pure, Except.ok.injEq, Prod.mk.injEq] at h
      rw [← h.2]
      exact readAttribute_isRest (show _ = Except.ok (p.1, p.2) from ha)

/-! ## Lists -/

/-- the entries up to the closing parenthesis, which is taken off -/
def readEntries (superAllowed : Bool) (s : List Char) : Except Fault (List Entry × List Char) :=
  match _h : readEntry superAllowed s with
  | .error f => .error f
  | .ok (e, ')' :: r) => .ok ([e], r)
  | .ok (e, ',' :: r) =>
    match _hg : skipGap r with
    | .error f => .error f
    | .ok r =>
      match readEntries (superAllowed && !(e matches .superCall _)) r with
      | .error f => .error f
      | .ok (es, r) => .ok (e :: es, r)
  | .ok (_, r) => .error ⟨.invalidAttributes, r⟩
termination_by s.length
decreasing_by
  exact (IsRest.suffix_trans ((skipGap_suffix _hg).trans (List.suffix_cons _ _)) (readEntry_isRest _h)).2

/-- the attributes and the super call among the entries -/
def attributesOfEntries (es : List Entry) : Attributes where
  superCall := es.findSome? fun
    | .superCall c => some c
    | .setting _ => none
  list := es.filterMap fun
    | .superCall _ => none
    | .setting a => some a

/-- an attribute list, given the text after the opening parenthesis -/
def readAttributes (s : List Char) : Except Fault (Attributes × List Char) := do
  match ← skipGap s with
  | ')' :: r => return (⟨none, []⟩, r)
  | r =>
    let (es, r) ← readEntries true r
    return (attributesOfEntries es, r)

theorem readEntries_isRest {allowed : Bool} {s r : List Char} {es : List Entry}
    (h : readEntries allowed s = .ok (es, r)) : IsRest r s := by
  fun_induction readEntries allowed s generalizing es r with
  | case1 => simp at h
  | case2 allowed s e t he =>
    simp only [Except.ok.injEq, Prod.mk.injEq] at h
    rw [← h.2]
    exact .suffix_trans (List.suffix_cons _ _) (readEntry_isRest he)
  | case3 => simp at h
  | case4 => simp at h
  | case5 allowed s e t he u hg es' r' hes ih =>
    simp only [Except.ok.injEq, Prod.mk.injEq] at h
    rw [← h.2]
    exact (ih hes).trans (.suffix_trans ((skipGap_suffix hg).trans (List.suffix_cons _ _)) (readEntry_isRest he))
  | case6 => simp at h

theorem readAttributes_isRest {s r : List Char} {a : Attributes} (h : readAttributes s = .ok (a, r)) :
    IsRest r s := by
  unfold readAttributes at h
  cases hg : skipGap s with
  | error f => simp [hg, bind, Except.bind] at h
  | ok t =>
    have ht := skipGap_suffix hg
    simp only [hg, bind, Except.bind] at h
    split at h
    · simp only [pure, Except.pure, Except.ok.injEq, Prod.mk.injEq] at h
      rw [← h.2]
      exact (IsRest.of_cons List.suffix_rfl).trans_suffix ht
    · cases he : readEntries true t with
      | error f => simp [he] at h
      | ok p =>
        simp only [he, pure, Except.pure, Except.ok.injEq, Prod.mk.injEq] at h
        rw [← h.2]
        exact (readEntries_isRest (show _ = Except.ok (p.1, p.2) from he)).trans_suffix ht

end BlockTemplates.Source
