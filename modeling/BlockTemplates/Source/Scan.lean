/-
The elementary readers. A position in a source is the text that is left; a reader takes characters off its front.
Spaces are all characters up to U+0020; a gap is any run of spaces and comments.

Main statements: every reader leaves a rest of what it was given (`IsRest`, which counts at least one character read, or
a suffix), from which the loops built on them end.
-/
import BlockTemplates.Source.Error

namespace BlockTemplates.Source

/-! ## What is left -/

/-- `r` is left of `s` after at least one character was read -/
def IsRest (r s : List Char) : Prop := r <:+ s ∧ r.length < s.length

theorem IsRest.of_cons {c : Char} {r s : List Char} (h : r <:+ s) : IsRest r (c :: s) :=
  ⟨h.trans (List.suffix_cons c s), by have := h.length_le; simp; omega⟩

theorem IsRest.trans_suffix {r s t : List Char} (h : IsRest r s) (hs : s <:+ t) : IsRest r t :=
  ⟨h.1.trans hs, by have := hs.length_le; have := h.2; omega⟩

theorem IsRest.suffix_trans {q r s : List Char} (hq : q <:+ r) (h : IsRest r s) : IsRest q s :=
  ⟨hq.trans h.1, by have := hq.length_le; have := h.2; omega⟩

theorem IsRest.trans {q r s : List Char} (hq : IsRest q r) (h : IsRest r s) : IsRest q s := hq.trans_suffix h.1

theorem IsRest.append {t r : List Char} (h : t ≠ []) : IsRest r (t ++ r) := by
  refine ⟨List.suffix_append t r, ?_⟩
  have := List.length_pos_iff.2 h
  simp; omega

/-! ## Spaces and single characters -/

def isSpace (c : Char) : Bool := c ≤ ' '

/-- drop the spaces at the front -/
def skipSpaces (s : List Char) : List Char := s.dropWhile isSpace

theorem skipSpaces_suffix (s : List Char) : skipSpaces s <:+ s := List.dropWhile_suffix _

/-- whether a comment starts here -/
def atComment : List Char → Bool
  | '/' :: '/' :: _ => true
  | '/' :: '*' :: _ => true
  | _ => false

/-- take the given character off, or fail -/
def expect (c : Char) : List Char → Except Fault (List Char)
  | [] => .error ⟨.expected c none, []⟩
  | d :: s => if d = c then .ok s else .error ⟨.expected c (some d), d :: s⟩

/-- take the given text off, if it is there -/
def eat (text s : List Char) : Option (List Char) := if text.isPrefixOf s then some (s.drop text.length) else none

/-! ## Comments -/

/-- a comment as it stands in the source -/
structure Comment where
  value : String
  multiline : Bool
deriving DecidableEq, Repr

/-- whether the character ends a line -/
def isLineEnd (c : Char) : Bool := c == '\r' || c == '\n'

/-- the text up to `*/` and what follows it; `read` is the part already seen, last character first -/
def untilCommentEnd (read : List Char) : List Char → Option (List Char × List Char)
  | '*' :: '/' :: s => some (read.reverse, s)
  | c :: s => untilCommentEnd (c :: read) s
  | [] => none

theorem untilCommentEnd_suffix {read s v r : List Char} (h : untilCommentEnd read s = some (v, r)) : r <:+ s := by
  fun_induction untilCommentEnd read s with
  | case1 read s =>
    simp only [Option.some.injEq, Prod.mk.injEq] at h
    rw [← h.2]
    exact (List.suffix_cons _ s).trans (List.suffix_cons _ _)
  | case2 read c s _ ih => exact (ih h).trans (List.suffix_cons c s)
  | case3 => simp at h

/-- read a comment of either kind -/
def readComment : List Char → Except Fault (Comment × List Char)
  | '/' :: '/' :: s =>
    .ok (⟨String.ofList (s.takeWhile (!isLineEnd ·)), false⟩, s.dropWhile (!isLineEnd ·))
  | '/' :: '*' :: s =>
    match untilCommentEnd [] s with
    | some (value, r) => .ok (⟨String.ofList value, true⟩, r)
    | none => .error ⟨.unterminatedComment, '/' :: '*' :: s⟩
  | '/' :: s => .error ⟨.expected '/' s.head?, s⟩
  | s => .error ⟨.expected '/' s.head?, s⟩

theorem readComment_isRest {s r : List Char} {c : Comment} (h : readComment s = .ok (c, r)) : IsRest r s := by
  unfold readComment at h
  split at h
  · simp only [Except.ok.injEq, Prod.mk.injEq] at h
    rw [← h.2]
    exact .of_cons ((List.dropWhile_suffix _).trans (List.suffix_cons _ _))
  · split at h
    · rename_i hu
      simp only [Except.ok.injEq, Prod.mk.injEq] at h
      rw [← h.2]
      exact .of_cons ((untilCommentEnd_suffix hu).trans (List.suffix_cons _ _))
    · simp at h
  · simp at h
  · simp at h

/-! ## Gaps -/

/-- drop spaces and comments; a lone slash is an error -/
def skipGap (s : List Char) : Except Fault (List Char) :=
  match _hs : skipSpaces s with
  | '/' :: t =>
    match _hc : readComment ('/' :: t) with
    | .error f => .error f
    | .ok (_, r) => skipGap r
  | t => .ok t
termination_by s.length
decreasing_by exact ((readComment_isRest _hc).trans_suffix (_hs ▸ skipSpaces_suffix s)).2

theorem skipGap_suffix {s r : List Char} (h : skipGap s = .ok r) : r <:+ s := by
  fun_induction skipGap s with
  | case1 => simp at h
  | case2 s t hs _ r' hc ih =>
    exact (ih h).trans ((readComment_isRest hc).1.trans (hs ▸ skipSpaces_suffix s))
  | case3 s _ =>
    simp only [Except.ok.injEq] at h
    rw [← h]
    exact skipSpaces_suffix s

end BlockTemplates.Source
