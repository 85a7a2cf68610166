/-
What may stand between words: spaces, and in attribute lists comments too. A run of characters of one class is taken off
as a whole when what follows is not of the class.

Main statements: `skipSpaces_append` and `skipGap_append` (a gap is skipped as a whole), `readComment_line` and
`readComment_block` (comments are read back).
-/
import BlockTemplates.Source.Scan

namespace BlockTemplates.Source

/-! ## Runs of characters -/

section

variable {p : Char → Bool} {s rest : List Char}

/-- a text that is not empty has one first character -/
theorem forall_head?_cons {P : Char → Prop} {c : Char} (h : P c) : ∀ d, (c :: s).head? = some d → P d := by
  intro d hd
  rw [List.head?_cons, Option.some.injEq] at hd
  exact hd ▸ h

theorem takeWhile_run (hs : ∀ c ∈ s, p c = true) (hr : ∀ c, rest.head? = some c → p c = false) :
    (s ++ rest).takeWhile p = s := by
  rw [List.takeWhile_append_of_pos hs]
  cases rest with
  | nil => simp
  | cons c rest => simp [hr c rfl]

theorem dropWhile_run (hs : ∀ c ∈ s, p c = true) (hr : ∀ c, rest.head? = some c → p c = false) :
    (s ++ rest).dropWhile p = rest := by
  rw [List.dropWhile_append_of_pos hs]
  cases rest with
  | nil => rfl
  | cons c rest => simp [hr c rfl]

end

/-! ## Spaces -/

/-- nothing but characters up to U+0020 -/
def Spaces (s : List Char) : Prop := ∀ c ∈ s, isSpace c = true

theorem Spaces.nil : Spaces [] := by simp [Spaces]

theorem Spaces.cons {c : Char} {s : List Char} (hc : isSpace c = true) (hs : Spaces s) : Spaces (c :: s) :=
  List.forall_mem_cons.2 ⟨hc, hs⟩

/-- the text does not continue spaces -/
def EndsSpaces (s : List Char) : Prop := ∀ c, s.head? = some c → isSpace c = false

theorem endsSpaces_cons {c : Char} {s : List Char} (h : isSpace c = false) : EndsSpaces (c :: s) := forall_head?_cons h

theorem skipSpaces_eq_self {s : List Char} (h : EndsSpaces s) : skipSpaces s = s :=
  dropWhile_run (s := []) (by simp) h

theorem skipSpaces_append {s : List Char} (hs : Spaces s) (rest : List Char) :
    skipSpaces (s ++ rest) = skipSpaces rest := List.dropWhile_append_of_pos hs

theorem skipSpaces_cons_space {c : Char} {s : List Char} (h : isSpace c = true) : skipSpaces (c :: s) = skipSpaces s :=
  skipSpaces_append (Spaces.nil.cons h) s

theorem skipSpaces_append_cons {c : Char} {s : List Char} (hs : Spaces s) (hc : isSpace c = false) (rest : List Char) :
    skipSpaces (s ++ c :: rest) = c :: rest := by
  rw [skipSpaces_append hs]
  exact skipSpaces_eq_self (endsSpaces_cons hc)

theorem endsSpaces_skipSpaces (s : List Char) : EndsSpaces (skipSpaces s) := by
  intro c hc
  have := List.head?_dropWhile_not isSpace s
  unfold skipSpaces at hc
  rw [hc] at this
  simpa using this

theorem skipSpaces_skipSpaces (s : List Char) : skipSpaces (skipSpaces s) = skipSpaces s :=
  skipSpaces_eq_self (endsSpaces_skipSpaces s)

theorem isSpace_of_isLineEnd {c : Char} (h : isLineEnd c = true) : isSpace c = true := by
  unfold isLineEnd at h
  rcases Bool.or_eq_true _ _ ▸ h with h | h
  · rw [eq_of_beq h]
    decide
  · rw [eq_of_beq h]
    decide

/-! ## Comments -/

/-- a comment that ends with its line has no line end -/
def OneLine (v : List Char) : Prop := ∀ c ∈ v, isLineEnd c = false

/-- a comment that has an end has none inside -/
def Unclosed (v : List Char) : Prop := ¬ ['*', '/'] <:+: v

theorem readComment_line {v : List Char} {c : Char} (hv : OneLine v) (hc : isLineEnd c = true) (rest : List Char) :
    readComment ('/' :: '/' :: (v ++ c :: rest)) = .ok (⟨String.ofList v, false⟩, c :: rest) := by
  have hline : ∀ d ∈ v, (!isLineEnd d) = true := by
    intro d hd
    rw [hv d hd]
    rfl
  have hend : ∀ d, (c :: rest).head? = some d → (!isLineEnd d) = false := forall_head?_cons (by rw [hc]; rfl)
  simp only [readComment, takeWhile_run hline hend, dropWhile_run hline hend]

theorem untilCommentEnd_append {v : List Char} (hv : Unclosed v) (read rest : List Char) :
    untilCommentEnd read (v ++ '*' :: '/' :: rest) = some (read.reverse ++ v, rest) := by
  induction v generalizing read with
  | nil => simp [untilCommentEnd]
  | cons c v ih =>
    have hv' : Unclosed v := fun h => hv (h.trans (List.suffix_cons c v).isInfix)
    have hstep : untilCommentEnd read (c :: (v ++ '*' :: '/' :: rest)) =
        untilCommentEnd (c :: read) (v ++ '*' :: '/' :: rest) := by
      rw [untilCommentEnd.eq_def]
      split
      · rename_i heq
        cases v with
        | nil => simp at heq
        | cons d v =>
          simp only [List.cons_append, List.cons.injEq] at heq
          obtain ⟨hc, hd, -⟩ := heq
          exact absurd ⟨[], v, by rw [hc, hd]; rfl⟩ hv
      · rename_i heq
        cases heq
        rfl
      · simp at *
    rw [List.cons_append, hstep, ih hv']
    simp

theorem readComment_block {v : List Char} (hv : Unclosed v) (rest : List Char) :
    readComment ('/' :: '*' :: (v ++ '*' :: '/' :: rest)) = .ok (⟨String.ofList v, true⟩, rest) := by
  simp only [readComment, untilCommentEnd_append hv, List.reverse_nil, List.nil_append]

/-! ## Gaps -/

/-- spaces and comments in any order; a comment that ends with its line is followed by the line end -/
inductive Gap : List Char → Prop
  | nil : Gap []
  | space {c g} : isSpace c = true → Gap g → Gap (c :: g)
  | line {v c g} : OneLine v → isLineEnd c = true → Gap g → Gap ('/' :: '/' :: (v ++ c :: g))
  | block {v g} : Unclosed v → Gap g → Gap ('/' :: '*' :: (v ++ '*' :: '/' :: g))

theorem Gap.of_spaces {s : List Char} (h : Spaces s) : Gap s := by
  induction s with
  | nil => exact .nil
  | cons c s ih => exact .space (h c List.mem_cons_self) (ih fun d hd => h d (List.mem_cons_of_mem _ hd))

/-- the text does not continue a gap -/
def EndsGap (s : List Char) : Prop := EndsSpaces s ∧ s.head? ≠ some '/'

theorem skipGap_eq (s : List Char) :
    skipGap s =
      match skipSpaces s with
      | '/' :: t =>
        match readComment ('/' :: t) with
        | .error f => .error f
        | .ok (_, r) => skipGap r
      | t => .ok t := by
  rw [skipGap]
  split
  · rename_i t hs
    simp only [hs]
    split
    · rename_i hc
      simp only [hc]
    · rename_i hc
      simp only [hc]
  · rename_i hs
    split
    · rename_i heq
      exact absurd heq (hs _)
    · rfl

theorem skipGap_space {c : Char} {s : List Char} (h : isSpace c = true) : skipGap (c :: s) = skipGap s := by
  rw [skipGap_eq, skipGap_eq s, skipSpaces_cons_space h]

theorem skipGap_comment {s r : List Char} {c : Comment} (h : readComment ('/' :: s) = .ok (c, r)) :
    skipGap ('/' :: s) = skipGap r := by
  have hs : skipSpaces ('/' :: s) = '/' :: s := skipSpaces_eq_self (endsSpaces_cons (by decide))
  rw [skipGap_eq, hs]
  simp only [h]

theorem skipGap_of_endsGap {s : List Char} (h : EndsGap s) : skipGap s = .ok s := by
  rw [skipGap_eq, skipSpaces_eq_self h.1]
  split
  · exact absurd rfl h.2
  · rfl

theorem skipGap_append {g rest : List Char} (hg : Gap g) (hr : EndsGap rest) : skipGap (g ++ rest) = .ok rest := by
  induction hg with
  | nil => exact skipGap_of_endsGap hr
  | space hc _ ih => rw [List.cons_append, skipGap_space hc, ih]
  | @line v c g hv hc _ ih =>
    simp only [List.cons_append, List.append_assoc]
    rw [skipGap_comment (readComment_line hv hc _), skipGap_space (isSpace_of_isLineEnd hc), ih]
  | @block v g hv _ ih =>
    simp only [List.cons_append, List.append_assoc]
    rw [skipGap_comment (readComment_block hv _), ih]

end BlockTemplates.Source
