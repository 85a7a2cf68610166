/-
The normal form of multi-line texts. Trimming the whole text takes off blank lines at both ends, and the one before or
behind them is trimmed a second time as a line; a line ending of two characters is one ending, or two with an empty line
between them. None of this shows once the lines are tidied, so the passes over the whole text come to the same as reading
the lines off, and what they come to depends only on the lines that are not blank.

Main statements: `normalize_eq` (the passes and the lines), `linesOf_joinLines` (lines are read off as they were joined),
`Relaid.tidy_pieces` (what does not change the lines) and `normal_form`.
-/
import BlockTemplates.Proofs.Layout.AttributeLists
import BlockTemplates.Text.Lines
import Mathlib.Data.List.DropRight
import Mathlib.Logic.Relation

namespace BlockTemplates.Text

open Source

/-! ## Trimming -/

/-- blanks only -/
def AllBlank (s : List Char) : Prop := ∀ c ∈ s, isBlank c = true

theorem allBlank_nil : AllBlank [] := fun _ hc => absurd hc List.not_mem_nil

/-- no blank stands at either end -/
structure Trimmed (s : List Char) : Prop where
  first : ∀ c, s.head? = some c → isBlank c = false
  last : ∀ c, s.getLast? = some c → isBlank c = false

section

variable {c : Char} {s w : List Char}

theorem isBlank_of_isLineEnd (h : isLineEnd c = true) : isBlank c = true := by
  unfold isLineEnd at h
  rcases Bool.or_eq_true _ _ ▸ h with h | h
  · rw [eq_of_beq h]
    decide
  · rw [eq_of_beq h]
    decide

theorem trim_blanks_append (hw : AllBlank w) (s : List Char) : trim (w ++ s) = trim s := by
  rw [trim, trimStart, List.dropWhile_append_of_pos hw]
  rfl

theorem trim_append_blanks (hw : AllBlank w) (s : List Char) : trim (s ++ w) = trim s := by
  unfold trim trimStart
  rw [List.dropWhile_append]
  split
  · rename_i hs
    rw [List.isEmpty_iff.1 hs, List.dropWhile_eq_nil_iff.2 hw]
  · exact trimEnd_append hw

theorem trim_of_allBlank (hw : AllBlank w) : trim w = [] := by
  rw [← List.append_nil w, trim_blanks_append hw]
  rfl

/-- trimming takes off blanks only -/
theorem exists_trim (s : List Char) : ∃ w w', AllBlank w ∧ AllBlank w' ∧ s = w ++ trim s ++ w' := by
  refine ⟨s.takeWhile isBlank, (trimStart s).rtakeWhile isBlank, ?_, ?_, ?_⟩
  · exact fun c hc => List.mem_takeWhile_imp hc
  · exact fun c hc => List.mem_rtakeWhile_imp hc
  · have hend : trim s ++ (trimStart s).rtakeWhile isBlank = trimStart s := List.rdropWhile_append_rtakeWhile
    rw [List.append_assoc, hend]
    exact List.takeWhile_append_dropWhile.symm

theorem trimmed_trim (s : List Char) : Trimmed (trim s) where
  first c hc := by
    obtain ⟨t, ht⟩ : trim s <+: trimStart s := List.rdropWhile_prefix isBlank (trimStart s)
    have hhead : (trimStart s).head? = some c := by rw [← ht, List.head?_append, hc, Option.some_or]
    have := List.head?_dropWhile_not isBlank s
    rw [← trimStart, hhead] at this
    exact this
  last c hc := by
    have hne : trim s ≠ [] := by
      rintro hnil
      rw [hnil] at hc
      contradiction
    have hlast := List.rdropWhile_last_not isBlank (trimStart s) hne
    rw [List.getLast?_eq_some_getLast hne, Option.some.injEq] at hc
    rw [← hc]
    exact Bool.eq_false_iff.2 hlast

theorem Trimmed.trim_eq (h : Trimmed s) : trim s = s := by
  have hstart : trimStart s = s := by
    cases s with
    | nil => rfl
    | cons c s => exact List.dropWhile_cons_of_neg (Bool.eq_false_iff.1 (h.first c rfl))
  rw [trim, hstart]
  refine List.rdropWhile_eq_self_iff.2 fun hne => ?_
  rw [h.last _ (List.getLast?_eq_some_getLast hne)]
  exact Bool.false_ne_true

end

/-! ## Lines that are tidied -/

section

variable {c : Char} {s w l : List Char} {ls ls' : List (List Char)}

theorem tidy_append (ls ls' : List (List Char)) : tidy (ls ++ ls') = tidy ls ++ tidy ls' := by
  simp [tidy]

theorem tidy_cons (l : List Char) (ls : List (List Char)) :
    tidy (l :: ls) = if trim l = [] then tidy ls else trim l :: tidy ls := by
  unfold tidy
  rw [List.map_cons, List.filter_cons]
  by_cases h : trim l = []
  · simp [h]
  · simp [h]

theorem tidy_blank_cons (hw : AllBlank w) (ls : List (List Char)) : tidy (w :: ls) = tidy ls := by
  rw [tidy_cons, if_pos (trim_of_allBlank hw)]

theorem tidy_of_allBlank (h : ∀ l ∈ ls, AllBlank l) : tidy ls = [] := by
  induction ls with
  | nil => rfl
  | cons l ls ih =>
    rw [List.forall_mem_cons] at h
    rw [tidy_blank_cons h.1, ih h.2]

/-- the pieces of a text between the characters of line endings, each such character taken for itself -/
def pieces (s : List Char) : List (List Char) := s.splitOnP isLineEnd

theorem pieces_end_cons (hc : isLineEnd c = true) (s : List Char) : pieces (c :: s) = [] :: pieces s := by
  rw [pieces, List.splitOnP_cons_eq_if_modifyHead, if_pos hc]
  rfl

theorem pieces_cons (hc : isLineEnd c = false) (s : List Char) : pieces (c :: s) = consLine c (pieces s) := by
  rw [pieces, List.splitOnP_cons_eq_if_modifyHead, if_neg (Bool.eq_false_iff.1 hc), ← pieces]
  cases hs : pieces s with
  | nil => exact absurd hs (List.splitOnP_ne_nil _ _)
  | cons l ls => rfl

theorem pieces_append_cons (hc : isLineEnd c = true) (s t : List Char) :
    pieces (s ++ c :: t) = pieces s ++ pieces t := List.splitOnP_append_cons s t hc

/-- what stands in a piece stands in the text, and is no part of a line ending -/
theorem mem_of_mem_pieces (hl : l ∈ pieces s) (hc : c ∈ l) : c ∈ s ∧ isLineEnd c = false := by
  induction s generalizing l with
  | nil =>
    obtain rfl : l = [] := by simpa [pieces] using hl
    contradiction
  | cons d s ih =>
    cases hend : isLineEnd d with
    | true =>
      rw [pieces_end_cons hend] at hl
      rcases List.mem_cons.1 hl with rfl | hl
      · contradiction
      · exact ⟨List.mem_cons_of_mem d (ih hl hc).1, (ih hl hc).2⟩
    | false =>
      rw [pieces_cons hend] at hl
      cases hpieces : pieces s with
      | nil => exact absurd hpieces (List.splitOnP_ne_nil _ _)
      | cons m ms =>
        rw [hpieces] at hl ih
        rcases List.mem_cons.1 hl with rfl | hl
        · rcases List.mem_cons.1 hc with rfl | hc
          · exact ⟨List.mem_cons_self, hend⟩
          · have := ih List.mem_cons_self hc
            exact ⟨List.mem_cons_of_mem d this.1, this.2⟩
        · have := ih (List.mem_cons_of_mem m hl) hc
          exact ⟨List.mem_cons_of_mem d this.1, this.2⟩

/-- the same lines, but for blanks at the end of the first one and for lines behind it that tidying drops -/
def Alike (ls ls' : List (List Char)) : Prop :=
  ∃ l w rest rest', ls = l :: rest ∧ ls' = (l ++ w) :: rest' ∧ AllBlank w ∧ tidy rest = tidy rest'

theorem Alike.tidy_eq (h : Alike ls ls') : tidy ls = tidy ls' := by
  obtain ⟨l, w, rest, rest', rfl, rfl, hw, hrest⟩ := h
  rw [tidy_cons, tidy_cons, trim_append_blanks hw, hrest]

theorem Alike.consLine (h : Alike ls ls') (c : Char) : Alike (consLine c ls) (consLine c ls') := by
  obtain ⟨l, w, rest, rest', rfl, rfl, hw, hrest⟩ := h
  exact ⟨c :: l, w, rest, rest', rfl, rfl, hw, hrest⟩

theorem alike_of_tidy (h : tidy ls = tidy ls') : Alike ([] :: ls) ([] :: ls') :=
  ⟨[], [], ls, ls', rfl, rfl, allBlank_nil, h⟩

/-- an ending of two characters leaves an empty piece between them, and no other difference -/
theorem alike_linesOf (s : List Char) : Alike (linesOf s) (pieces s) := by
  fun_induction linesOf s with
  | case1 => exact alike_of_tidy rfl
  | case2 s ih =>
    rw [pieces_end_cons (by decide), pieces_end_cons (by decide)]
    apply alike_of_tidy
    rw [tidy_blank_cons allBlank_nil]
    exact ih.tidy_eq
  | case3 c s hpair hend ih =>
    rw [pieces_end_cons (by simpa [isLineEnd] using hend)]
    exact alike_of_tidy ih.tidy_eq
  | case4 c s hpair hend ih =>
    rw [pieces_cons (by simpa [isLineEnd] using hend)]
    exact ih.consLine c

theorem tidy_linesOf (s : List Char) : tidy (linesOf s) = tidy (pieces s) := (alike_linesOf s).tidy_eq

/-- blanks in front of a text, line endings among them, do not show -/
theorem tidy_pieces_blanks_append (hw : AllBlank w) (s : List Char) : tidy (pieces (w ++ s)) = tidy (pieces s) := by
  induction w with
  | nil => rfl
  | cons c w ih =>
    obtain ⟨hc, hw⟩ := List.forall_mem_cons.1 hw
    rw [← ih hw, List.cons_append]
    cases hend : isLineEnd c with
    | true =>
      rw [pieces_end_cons hend]
      exact tidy_blank_cons allBlank_nil _
    | false =>
      have hblank : AllBlank [c] := by simpa [AllBlank] using hc
      rw [pieces_cons hend]
      cases hpieces : pieces (w ++ s) with
      | nil => exact absurd hpieces (List.splitOnP_ne_nil _ _)
      | cons l ls => rw [consLine, tidy_cons, tidy_cons, ← List.singleton_append, trim_blanks_append hblank]

/-- nor do blanks behind it -/
theorem alike_pieces_append_blanks (hw : AllBlank w) (s : List Char) : Alike (pieces s) (pieces (s ++ w)) := by
  induction s with
  | nil =>
    have hpieces : ∀ l ∈ pieces w, AllBlank l := fun l hl c hc => hw c (mem_of_mem_pieces hl hc).1
    cases hsplit : pieces w with
    | nil => exact absurd hsplit (List.splitOnP_ne_nil _ _)
    | cons l ls =>
      rw [hsplit, List.forall_mem_cons] at hpieces
      exact ⟨[], l, [], ls, rfl, hsplit, hpieces.1, (tidy_of_allBlank hpieces.2).symm⟩
  | cons c s ih =>
    rw [List.cons_append]
    cases hend : isLineEnd c with
    | true =>
      rw [pieces_end_cons hend, pieces_end_cons hend]
      exact alike_of_tidy ih.tidy_eq
    | false =>
      rw [pieces_cons hend, pieces_cons hend]
      exact ih.consLine c

theorem tidy_pieces_append_blanks (hw : AllBlank w) (s : List Char) : tidy (pieces (s ++ w)) = tidy (pieces s) :=
  (alike_pieces_append_blanks hw s).tidy_eq.symm

theorem tidy_pieces_trim (s : List Char) : tidy (pieces (trim s)) = tidy (pieces s) := by
  obtain ⟨w, w', hw, hw', hs⟩ := exists_trim s
  conv_rhs => rw [hs]
  rw [tidy_pieces_append_blanks hw', tidy_pieces_blanks_append hw]

end

/-! ## Texts of tidy lines -/

/-- a line of a normal text -/
structure TidyLine (l : List Char) : Prop where
  nonempty : l ≠ []
  trimmed : Trimmed l
  inside : ∀ c ∈ l, isLineEnd c = false

section

variable {c : Char} {s l : List Char} {ls : List (List Char)}

theorem tidyLine_of_mem (h : l ∈ tidy (pieces s)) : TidyLine l := by
  unfold tidy at h
  obtain ⟨hl, hne⟩ := List.mem_filter.1 h
  obtain ⟨m, hm, rfl⟩ := List.mem_map.1 hl
  exact {
    nonempty := by simpa using hne
    trimmed := trimmed_trim m
    inside := fun c hc => (mem_of_mem_pieces hm ((trim_sublist m).subset hc)).2 }

theorem tidy_of_tidyLines (h : ∀ l ∈ ls, TidyLine l) : tidy ls = ls := by
  induction ls with
  | nil => rfl
  | cons l ls ih =>
    obtain ⟨hl, hls⟩ := List.forall_mem_cons.1 h
    rw [tidy_cons, hl.trimmed.trim_eq, if_neg hl.nonempty, ih hls]

theorem joinLines_cons (l : List Char) (ls : List (List Char)) :
    joinLines (l :: ls) = l ++ ls.flatMap ('\n' :: ·) := by
  unfold joinLines
  induction ls generalizing l with
  | nil => simp
  | cons m ms ih => rw [List.intercalate_cons_cons, ih, List.flatMap_cons]; simp

theorem joinLines_cons_cons (l m : List Char) (ls : List (List Char)) :
    joinLines (l :: m :: ls) = l ++ '\n' :: joinLines (m :: ls) := by
  rw [joinLines_cons, joinLines_cons, List.flatMap_cons]
  rfl

theorem linesOf_cons (hc : isLineEnd c = false) (s : List Char) : linesOf (c :: s) = consLine c (linesOf s) := by
  have hne : ¬ (c = '\r' ∨ c = '\n') := by simpa [isLineEnd] using hc
  rw [linesOf, if_neg hne]
  rintro _ rfl -
  exact hne (.inl rfl)

theorem linesOf_feed_cons (s : List Char) : linesOf ('\n' :: s) = [] :: linesOf s := by
  rw [linesOf, if_pos (.inr rfl)]
  rintro _ h -
  contradiction

theorem linesOf_line (h : ∀ c ∈ l, isLineEnd c = false) : linesOf l = [l] := by
  induction l with
  | nil => rfl
  | cons c l ih =>
    rw [List.forall_mem_cons] at h
    rw [linesOf_cons h.1, ih h.2]
    rfl

theorem linesOf_append_feed (h : ∀ c ∈ l, isLineEnd c = false) (s : List Char) :
    linesOf (l ++ '\n' :: s) = l :: linesOf s := by
  induction l with
  | nil => exact linesOf_feed_cons s
  | cons c l ih =>
    rw [List.forall_mem_cons] at h
    rw [List.cons_append, linesOf_cons h.1, ih h.2]
    rfl

/-- lines are read off again as they were joined -/
theorem linesOf_joinLines (h : ∀ l ∈ ls, TidyLine l) (hne : ls ≠ []) : linesOf (joinLines ls) = ls := by
  induction ls with
  | nil => contradiction
  | cons l ls ih =>
    rw [List.forall_mem_cons] at h
    cases ls with
    | nil =>
      rw [joinLines_cons, List.flatMap_nil, List.append_nil]
      exact linesOf_line h.1.inside
    | cons m ms => rw [joinLines_cons_cons, linesOf_append_feed h.1.inside, ih h.2 (List.cons_ne_nil m ms)]

end

/-! ## The normal form -/

theorem unifyEndings_cons {c : Char} {s : List Char} (h : ∀ t, c = '\r' → s = '\n' :: t → False) :
    unifyEndings (c :: s) = (if c = '\r' then '\n' else c) :: unifyEndings s := by
  rw [unifyEndings]
  exact h

/-- unifying the line endings and then cutting is reading the lines off -/
theorem cutAtFeeds_unifyEndings (s : List Char) : cutAtFeeds (unifyEndings s) = linesOf s := by
  have hfeed (t : List Char) : cutAtFeeds ('\n' :: t) = [] :: cutAtFeeds t := rfl
  fun_induction linesOf s with
  | case1 => rfl
  | case2 s ih => rw [unifyEndings, hfeed, ih]
  | case3 c s hpair hend ih =>
    rw [unifyEndings_cons hpair]
    rcases hend with rfl | rfl
    · rw [if_pos rfl, hfeed, ih]
    · rw [if_neg (by decide), hfeed, ih]
  | case4 c s hpair hend ih =>
    rw [not_or] at hend
    rw [unifyEndings_cons hpair, if_neg hend.1, ← ih]
    exact if_neg hend.2

theorem normalize_eq (s : List Char) : normalize s = joinLines (tidy (pieces s)) := by
  rw [normalize, cutAtFeeds_unifyEndings, tidy_linesOf, tidy_pieces_trim]

/-- a text that is its own normal form -/
structure IsNormal (s : List Char) : Prop where
  no_return : '\r' ∉ s
  first : s.head? ≠ some '\n'
  last : s.getLast? ≠ some '\n'
  /-- a text without characters has no lines -/
  lines : s ≠ [] → ∀ l ∈ linesOf s, l ≠ [] ∧ Trimmed l

theorem mem_joinLines {c : Char} {ls : List (List Char)} (h : c ∈ joinLines ls) : c = '\n' ∨ ∃ l ∈ ls, c ∈ l := by
  cases ls with
  | nil => contradiction
  | cons l ls =>
    rw [joinLines_cons] at h
    rcases List.mem_append.1 h with hl | hrest
    · exact .inr ⟨l, List.mem_cons_self, hl⟩
    · obtain ⟨m, hm, hc⟩ := List.mem_flatMap.1 hrest
      rcases List.mem_cons.1 hc with hc | hc
      · exact .inl hc
      · exact .inr ⟨m, List.mem_cons_of_mem l hm, hc⟩

theorem trimmed_joinLines {ls : List (List Char)} (h : ∀ l ∈ ls, TidyLine l) : Trimmed (joinLines ls) where
  first c hc := by
    cases ls with
    | nil => contradiction
    | cons l ls =>
      have hl := h l List.mem_cons_self
      obtain ⟨d, hd⟩ := List.exists_mem_of_ne_nil l hl.nonempty
      obtain ⟨e, he⟩ := Option.isSome_iff_exists.1 (List.isSome_head?.2 (List.ne_nil_of_mem hd))
      rw [joinLines_cons, List.head?_append, he, Option.some_or, Option.some.injEq] at hc
      exact hl.trimmed.first c (hc ▸ he)
  last c hc := by
    induction ls with
    | nil => contradiction
    | cons l ls ih =>
      rw [List.forall_mem_cons] at h
      cases ls with
      | nil =>
        rw [joinLines_cons, List.flatMap_nil, List.append_nil] at hc
        exact h.1.trimmed.last c hc
      | cons m ms =>
        have hne : joinLines (m :: ms) ≠ [] := by
          rw [joinLines_cons]
          exact List.append_ne_nil_of_left_ne_nil (h.2 m List.mem_cons_self).nonempty _
        rw [joinLines_cons_cons, List.append_cons, List.getLast?_append_of_ne_nil _ hne] at hc
        exact ih h.2 hc

theorem isNormal_joinLines {ls : List (List Char)} (h : ∀ l ∈ ls, TidyLine l) : IsNormal (joinLines ls) where
  no_return hmem := by
    rcases mem_joinLines hmem with heq | ⟨l, hl, hc⟩
    · contradiction
    · exact absurd ((h l hl).inside _ hc) (by decide)
  first hfeed := absurd ((trimmed_joinLines h).first _ hfeed) (by decide)
  last hfeed := absurd ((trimmed_joinLines h).last _ hfeed) (by decide)
  lines hne l hl := by
    have hls : ls ≠ [] := by
      rintro rfl
      exact hne rfl
    rw [linesOf_joinLines h hls] at hl
    exact ⟨(h l hl).nonempty, (h l hl).trimmed⟩

/-- the characters that are not blank -/
def inked (s : List Char) : List Char := s.filter (!isBlank ·)

theorem inked_append (s t : List Char) : inked (s ++ t) = inked s ++ inked t := List.filter_append ..

theorem inked_of_allBlank {w : List Char} (hw : AllBlank w) : inked w = [] :=
  List.filter_eq_nil_iff.2 fun c hc => by simp [hw c hc]

theorem inked_trim (s : List Char) : inked (trim s) = inked s := by
  obtain ⟨w, w', hw, hw', hs⟩ := exists_trim s
  conv_rhs => rw [hs]
  rw [inked_append, inked_append, inked_of_allBlank hw, inked_of_allBlank hw', List.nil_append, List.append_nil]

theorem inked_joinLines (ls : List (List Char)) : inked (joinLines ls) = ls.flatMap inked := by
  cases ls with
  | nil => rfl
  | cons l ls =>
    rw [joinLines_cons, inked_append, List.flatMap_cons]
    exact congrArg (inked l ++ ·) List.filter_flatMap

theorem flatMap_inked_tidy (ls : List (List Char)) : (tidy ls).flatMap inked = ls.flatMap inked := by
  induction ls with
  | nil => rfl
  | cons l ls ih =>
    rw [tidy_cons, List.flatMap_cons, ← inked_trim l]
    split
    · rename_i hl
      rw [hl, ih]
      rfl
    · rw [List.flatMap_cons, ih]

theorem flatMap_inked_pieces (s : List Char) : (pieces s).flatMap inked = inked s := by
  induction s with
  | nil => rfl
  | cons c s ih =>
    have hcons : inked (c :: s) = inked [c] ++ inked s := inked_append [c] s
    rw [hcons, ← ih]
    cases hend : isLineEnd c with
    | true =>
      have hc : AllBlank [c] := fun d hd => List.mem_singleton.1 hd ▸ isBlank_of_isLineEnd hend
      rw [pieces_end_cons hend, inked_of_allBlank hc]
      rfl
    | false =>
      rw [pieces_cons hend]
      cases hpieces : pieces s with
      | nil => exact absurd hpieces (List.splitOnP_ne_nil _ _)
      | cons l ls =>
        have hline : inked (c :: l) = inked [c] ++ inked l := inked_append [c] l
        rw [consLine, List.flatMap_cons, List.flatMap_cons, hline, List.append_assoc]

theorem inked_normalize (s : List Char) : inked (normalize s) = inked s := by
  rw [normalize_eq, inked_joinLines, flatMap_inked_tidy, flatMap_inked_pieces]

theorem normalize_normalize (s : List Char) : normalize (normalize s) = normalize s := by
  have htidy : ∀ l ∈ tidy (pieces s), TidyLine l := fun l hl => tidyLine_of_mem hl
  rw [normalize_eq s]
  generalize tidy (pieces s) = ls at htidy
  by_cases hls : ls = []
  · rw [hls]
    rfl
  · rw [normalize_eq, ← tidy_linesOf, linesOf_joinLines htidy hls, tidy_of_tidyLines htidy]

/-! ## Layouts of a text -/

/-- the ways in which a line can be ended -/
inductive LineEnding : List Char → Prop
  | lineFeed : LineEnding ['\n']
  | carriageReturn : LineEnding ['\r']
  | both : LineEnding ['\r', '\n']

/-- between the two parts of a text a line begins or ends -/
def AtLineEnd (before after : List Char) : Prop :=
  (∀ c, before.getLast? = some c → isLineEnd c = true) ∨ ∀ c, after.head? = some c → isLineEnd c = true

/-- one change of a layout: a line is ended in another way, or blanks are added where a line begins or ends -/
inductive Relaid : List Char → List Char → Prop
  | ending {e e'} (before after) : LineEnding e → LineEnding e' → Relaid (before ++ e ++ after) (before ++ e' ++ after)
  | blanks {before after} (w) : AtLineEnd before after → AllBlank w → Relaid (before ++ after) (before ++ w ++ after)

theorem LineEnding.tidy_pieces {e : List Char} (h : LineEnding e) (before after : List Char) :
    tidy (pieces (before ++ e ++ after)) = tidy (pieces before) ++ tidy (pieces after) := by
  rw [List.append_assoc, ← tidy_append]
  cases h with
  | lineFeed => rw [List.singleton_append, pieces_append_cons (by decide)]
  | carriageReturn => rw [List.singleton_append, pieces_append_cons (by decide)]
  | both =>
    rw [List.cons_append, List.singleton_append, pieces_append_cons (by decide), pieces_end_cons (by decide),
      tidy_append, tidy_append, tidy_blank_cons allBlank_nil]

theorem Relaid.tidy_pieces {s t : List Char} (h : Relaid s t) : tidy (pieces t) = tidy (pieces s) := by
  cases h with
  | ending before after he he' => rw [he.tidy_pieces, he'.tidy_pieces]
  | @blanks before after w hat hw =>
    rcases hat with hbefore | hafter
    · rcases List.eq_nil_or_concat' before with rfl | ⟨before, c, rfl⟩
      · rw [List.nil_append, List.nil_append, tidy_pieces_blanks_append hw]
      · have hc : isLineEnd c = true := hbefore c List.getLast?_concat
        have hjoined : before ++ [c] ++ w ++ after = before ++ c :: (w ++ after) := by
          simp only [List.append_assoc, List.cons_append, List.nil_append]
        rw [hjoined, List.append_assoc, List.singleton_append, pieces_append_cons hc, pieces_append_cons hc, tidy_append,
          tidy_append, tidy_pieces_blanks_append hw]
    · cases after with
      | nil => rw [List.append_nil, List.append_nil, tidy_pieces_append_blanks hw]
      | cons c after =>
        have hc : isLineEnd c = true := hafter c rfl
        rw [pieces_append_cons hc, pieces_append_cons hc, tidy_append, tidy_append, tidy_pieces_append_blanks hw]

/-! ## Passes over a whole text -/

/-- a carriage return with a line feed behind it gives way to the line feed -/
def replacePairs : List Char → List Char
  | [] => []
  | '\r' :: '\n' :: s => '\n' :: replacePairs s
  | c :: s => c :: replacePairs s

/-- every carriage return gives way to a line feed -/
def replaceReturns (s : List Char) : List Char := s.map fun c => if c = '\r' then '\n' else c

/-- a line feed before the line, unless nothing has been written yet, then the line -/
def writeLine (out line : List Char) : List Char := if out = [] then line else out ++ '\n' :: line

/-- trim, replace the one and then the other, cut at line feeds, trim the lines and write those that are not empty -/
def normalizeInPasses (s : List Char) : List Char :=
  (((cutAtFeeds (replaceReturns (replacePairs (trim s)))).map trim).filter (!·.isEmpty)).foldl writeLine []

theorem replaceReturns_replacePairs (s : List Char) : replaceReturns (replacePairs s) = unifyEndings s := by
  fun_induction replacePairs s with
  | case1 => rfl
  | case2 s ih => rw [unifyEndings, ← ih]; rfl
  | case3 c s hpair ih => rw [unifyEndings_cons hpair, ← ih]; rfl

theorem foldl_writeLine {out : List Char} (h : out ≠ []) (ls : List (List Char)) :
    ls.foldl writeLine out = joinLines (out :: ls) := by
  induction ls generalizing out with
  | nil => rw [joinLines_cons, List.flatMap_nil, List.append_nil]; rfl
  | cons l ls ih =>
    have hne : out ++ '\n' :: l ≠ [] := List.append_ne_nil_of_left_ne_nil h _
    rw [List.foldl_cons, writeLine, if_neg h, ih hne, joinLines_cons, joinLines_cons, List.flatMap_cons]
    exact List.append_assoc _ _ _

theorem normalizeInPasses_eq (s : List Char) : normalizeInPasses s = normalize s := by
  unfold normalizeInPasses normalize
  rw [replaceReturns_replacePairs, ← tidy]
  cases hls : tidy (cutAtFeeds (unifyEndings (trim s))) with
  | nil => rfl
  | cons l ls =>
    have hl : l ∈ tidy (cutAtFeeds (unifyEndings (trim s))) := hls ▸ List.mem_cons_self
    rw [cutAtFeeds_unifyEndings, tidy_linesOf] at hl
    rw [List.foldl_cons, writeLine, if_pos rfl, foldl_writeLine (tidyLine_of_mem hl).nonempty]

/-- layouts of a text, however often they are changed and in which direction, have the same normal form -/
theorem normalize_of_relaid {s t : List Char} (h : Relation.EqvGen Relaid s t) : normalize s = normalize t := by
  induction h with
  | rel s t h => rw [normalize_eq, normalize_eq, h.tidy_pieces]
  | refl s => rfl
  | symm s t _ ih => exact ih.symm
  | trans s t u _ _ ih ih' => exact ih.trans ih'

/-- **Multi-line texts have a normal form.** The passes over the whole text give its lines, each trimmed, without those
that are then empty, with single line feeds between them. What they give is normal: it has no carriage return, no line
feed at either end, no empty line and no blanks at the ends of lines; the characters that are not blank are all there, in
their order. Normalizing again changes nothing, and neither do other line endings or blanks where lines begin or end. -/
theorem normal_form (s : List Char) :
    normalizeInPasses s = normalize s ∧ normalize s = joinLines (tidy (linesOf s)) ∧ IsNormal (normalize s) ∧
      inked (normalize s) = inked s ∧ normalize (normalize s) = normalize s ∧
      ∀ t, Relation.EqvGen Relaid s t → normalize t = normalize s := by
  refine ⟨normalizeInPasses_eq s, ?_, ?_, inked_normalize s, normalize_normalize s, ?_⟩
  · rw [normalize_eq, tidy_linesOf]
  · rw [normalize_eq]
    exact isNormal_joinLines fun l hl => tidyLine_of_mem hl
  · intro t h
    exact (normalize_of_relaid h).symm

/-- a blank line, a wide space before a line, and lines that are ended by carriage returns -/
def unevenText : List Char := "\r\n\u2003a b \r\rc\r".toList

theorem unevenText_normal_form :
    normalize unevenText = "a b\nc".toList ∧ IsNormal "a b\nc".toList ∧
      Relation.EqvGen Relaid unevenText (unevenText ++ "\n".toList) ∧
      normalize (unevenText ++ "\n".toList) = "a b\nc".toList := by
  have hnormal : normalize unevenText = "a b\nc".toList := by decide
  have hrelaid : Relation.EqvGen Relaid unevenText (unevenText ++ "\n".toList) :=
    .rel _ _ (.ending "\r\n\u2003a b \r\rc".toList [] .carriageReturn .both)
  obtain ⟨-, -, his, -, -, hsame⟩ := normal_form unevenText
  refine ⟨hnormal, hnormal ▸ his, hrelaid, ?_⟩
  rw [hsame _ hrelaid, hnormal]

end BlockTemplates.Text
