/-
Where errors lie. The offset of an error is a boundary in its source; line, column and fragment all speak of that
offset, and line and column determine it. An error never lies between the two characters of a CR LF, so in a source that
ends its lines in no other way with a CR the fragment is a whole line.

Main statements: `Says.not_splits` (no error lies inside a line ending), `getElem?_linesOf` (the line around a position)
and `parse_error_placed`.
-/
import BlockTemplates.Proofs.Faults.Meaning
import BlockTemplates.Proofs.Text.Boundaries

namespace BlockTemplates.Source

open Text

/-! ## Lines around a position -/

section

variable {s t before after : List Char} {c : Char}

theorem not_feed_of_takeWhile (h : '\n' ∉ s) : ∀ c ∈ s.reverse, (c != '\n') = true := by
  intro c hc
  refine bne_iff_ne.2 ?_
  rintro rfl
  exact h (List.mem_reverse.1 hc)

theorem lastLine_append (h : '\n' ∉ t) : lastLine (s ++ t) = lastLine s ++ t := by
  unfold lastLine
  rw [List.reverse_append, List.takeWhile_append_of_pos (not_feed_of_takeWhile h), List.reverse_append,
    List.reverse_reverse]

theorem lastLine_append_of_mem (h : '\n' ∈ t) : lastLine (s ++ t) = lastLine t := by
  unfold lastLine
  rw [List.reverse_append, List.takeWhile_append, if_neg]
  intro hlength
  have hall := List.takeWhile_eq_self_iff.1 ((List.takeWhile_prefix _).eq_of_length hlength)
  simpa using hall _ (List.mem_reverse.2 h)

theorem lastLine_cons_feed (s : List Char) : lastLine ('\n' :: s) = lastLine s := by
  by_cases h : '\n' ∈ s
  · exact @lastLine_append_of_mem ['\n'] s h
  · exact @lastLine_append ['\n'] s h |>.trans (@lastLine_append [] s h).symm

theorem not_mem_lastLine (s : List Char) : '\n' ∉ lastLine s := by
  unfold lastLine
  intro h
  have := List.all_eq_true.1 List.all_takeWhile _ (List.mem_reverse.1 h)
  contradiction

/-- the last line begins at the start of the text or behind a line feed -/
theorem exists_append_lastLine (s : List Char) :
    ∃ earlier, s = earlier ++ lastLine s ∧ (earlier = [] ∨ earlier.getLast? = some '\n') := by
  refine ⟨(s.reverse.dropWhile (· != '\n')).reverse, ?_, ?_⟩
  · unfold lastLine
    rw [← List.reverse_append, List.takeWhile_append_dropWhile, List.reverse_reverse]
  · rw [List.getLast?_reverse, List.reverse_eq_nil_iff]
    have := List.head?_dropWhile_not (· != '\n') s.reverse
    cases hd : s.reverse.dropWhile (· != '\n') with
    | nil => exact .inl rfl
    | cons c r =>
      rw [hd, List.head?_cons] at this
      exact .inr (by simpa using this)

theorem firstLine_isPrefix (s : List Char) : firstLine s <+: s := List.takeWhile_prefix _

theorem mem_firstLine (h : c ∈ firstLine s) : c ≠ '\n' ∧ c ≠ '\r' := by
  have := List.all_eq_true.1 List.all_takeWhile _ h
  simpa using this

/-- a position is determined by its line and what stands before it on that line -/
theorem eq_of_prefixes {before' : List Char} (h : before <+: s) (h' : before' <+: s)
    (hline : before.count '\n' = before'.count '\n') (hcolumn : (lastLine before).length = (lastLine before').length) :
    before = before' := by
  -- the longer of the two goes on without a line feed, hence not at all
  have main {a b : List Char} (hp : a <+: b) (hline : a.count '\n' = b.count '\n')
      (hcolumn : (lastLine a).length = (lastLine b).length) : a = b := by
    obtain ⟨u, rfl⟩ := hp
    rw [List.count_append] at hline
    have hu : '\n' ∉ u := List.count_eq_zero.1 (by omega)
    rw [lastLine_append hu, List.length_append] at hcolumn
    have hnil : u = [] := List.length_eq_zero_iff.1 (by omega)
    rw [hnil, List.append_nil]
  rcases List.prefix_or_prefix_of_prefix h h' with hp | hp
  · exact main hp hline hcolumn
  · exact (main hp hline.symm hcolumn.symm).symm

/-! ## Whole lines -/

/-- every carriage return is followed by a line feed -/
def FeedsFollowReturns (s : List Char) : Prop := ∀ before after, s = before ++ '\r' :: after → after.head? = some '\n'

/-- the position lies between a carriage return and a line feed -/
def SplitsEnding (before after : List Char) : Prop := before.getLast? = some '\r' ∧ after.head? = some '\n'

theorem FeedsFollowReturns.of_cons (h : FeedsFollowReturns (c :: s)) : FeedsFollowReturns s :=
  fun before after hs => h (c :: before) after (by rw [hs, List.cons_append])

theorem SplitsEnding.cons (h : SplitsEnding before after) (c : Char) : SplitsEnding (c :: before) after := by
  obtain ⟨hlast, hhead⟩ := h
  refine ⟨?_, hhead⟩
  rw [List.getLast?_cons, hlast]
  rfl

theorem getElem?_consLine_zero {ls : List (List Char)} {l : List Char} (h : ls[0]? = some l) (c : Char) :
    (consLine c ls)[0]? = some (c :: l) := by
  cases ls with
  | nil => contradiction
  | cons l' ls =>
    obtain rfl := Option.some.inj h
    rfl

theorem getElem?_consLine_succ {ls : List (List Char)} (h : ls ≠ []) (c : Char) (n : Nat) :
    (consLine c ls)[n + 1]? = ls[n + 1]? := by
  cases ls with
  | nil => contradiction
  | cons l ls => rfl

/-- the line around a position is the one that has as many lines before it as there are line feeds -/
theorem getElem?_linesOf (hs : FeedsFollowReturns s) (happend : s = before ++ after)
    (hsplit : ¬ SplitsEnding before after) :
    (linesOf s)[before.count '\n']? = some (lastLine before ++ firstLine after) := by
  fun_induction linesOf s generalizing before after with
  | case1 =>
    obtain ⟨rfl, rfl⟩ := List.append_eq_nil_iff.1 happend.symm
    rfl
  | case2 s ih =>
    rcases before with _ | ⟨c, _ | ⟨d, before⟩⟩
    · obtain rfl := happend
      rfl
    · simp only [List.cons_append, List.nil_append, List.cons.injEq] at happend
      obtain ⟨rfl, rfl⟩ := happend
      exact absurd ⟨rfl, rfl⟩ hsplit
    · simp only [List.cons_append, List.cons.injEq] at happend
      obtain ⟨rfl, rfl, happend⟩ := happend
      have hline : lastLine ('\r' :: '\n' :: before) = lastLine before :=
        (@lastLine_append_of_mem ['\r'] ('\n' :: before) List.mem_cons_self).trans (lastLine_cons_feed before)
      rw [List.count_cons_of_ne (by decide), List.count_cons_self, List.getElem?_cons_succ, hline]
      exact ih hs.of_cons.of_cons happend fun h => hsplit ((h.cons '\n').cons '\r')
  | case3 c s hne hc ih =>
    -- a carriage return would be followed by a line feed, which is the case before
    have hfeed : c = '\n' := by
      rcases hc with rfl | rfl
      · obtain ⟨r, rfl⟩ := List.head?_eq_some_iff.1 (hs [] s rfl)
        exact absurd rfl (hne r rfl)
      · rfl
    subst hfeed
    rcases before with _ | ⟨d, before⟩
    · obtain rfl := happend
      rfl
    · simp only [List.cons_append, List.cons.injEq] at happend
      obtain ⟨rfl, happend⟩ := happend
      rw [List.count_cons_self, List.getElem?_cons_succ, lastLine_cons_feed]
      exact ih hs.of_cons happend fun h => hsplit (h.cons '\n')
  | case4 c s hne hc ih =>
    obtain ⟨hr, hn⟩ := not_or.1 hc
    rcases before with _ | ⟨d, before⟩
    · obtain rfl := happend
      have hfirst : firstLine (c :: s) = c :: firstLine s := by simp [firstLine, hr, hn]
      have hnot : ¬ SplitsEnding [] s := by simp [SplitsEnding]
      have := ih hs.of_cons (List.nil_append s).symm hnot
      rw [List.count_nil, hfirst]
      exact getElem?_consLine_zero this c
    · simp only [List.cons_append, List.cons.injEq] at happend
      obtain ⟨rfl, happend⟩ := happend
      have hih := ih hs.of_cons happend fun h => hsplit (h.cons c)
      rw [List.count_cons_of_ne hn]
      by_cases hmem : '\n' ∈ before
      · have hline : lastLine (c :: before) = lastLine before := @lastLine_append_of_mem [c] before hmem
        obtain ⟨n, hcount⟩ := Nat.exists_eq_succ_of_ne_zero (List.count_pos_iff.2 hmem).ne'
        rw [hcount] at hih ⊢
        rw [hline, ← hih]
        exact getElem?_consLine_succ (linesOf_ne_nil s) c n
      · have hline (t : List Char) (ht : '\n' ∉ t) : lastLine t = t := @lastLine_append [] t ht
        rw [List.count_eq_zero.2 hmem, hline before hmem] at hih
        rw [List.count_eq_zero.2 hmem, hline (c :: before) (by simp [hmem, Ne.symm hn])]
        exact getElem?_consLine_zero hih c

theorem not_return_mem (hs : FeedsFollowReturns (before ++ after)) (hsplit : ¬ SplitsEnding before after) :
    '\r' ∉ lastLine before ++ firstLine after := by
  intro hmem
  rcases List.mem_append.1 hmem with h | h
  · obtain ⟨u, v, huv⟩ := List.append_of_mem h
    obtain ⟨earlier, hbefore, -⟩ := exists_append_lastLine before
    rw [huv] at hbefore
    have hhead := hs (earlier ++ u) (v ++ after) (by rw [hbefore]; simp)
    cases v with
    | nil =>
      refine hsplit ⟨?_, hhead⟩
      rw [hbefore]
      simp
    | cons c v =>
      obtain rfl := Option.some.inj hhead
      exact not_mem_lastLine before (by rw [huv]; simp)
  · exact (mem_firstLine h).2 rfl

/-! ## Errors -/

/-- no error lies inside a line ending -/
theorem ParseErrorKind.Says.not_splits {kind : ParseErrorKind} (h : kind.Says before after) :
    ¬ SplitsEnding before after := by
  rintro ⟨hlast, hhead⟩
  have hfeed (hends : EndsSpaces after) : False := absurd (hends '\n' hhead) (by decide)
  cases kind with
  | invalidBlockName =>
    rw [h.1] at hlast
    contradiction
  | expectedElement => exact hfeed h.1
  | expectedElementName => exact hfeed h.1
  | invalidAttributeName => exact hfeed h.1
  | invalidAttributes => exact hfeed h.1
  | unterminatedAttribute => exact (h '\n' (List.mem_of_head? hhead)).2.1 rfl
  | missingClosingBrace =>
    rw [h] at hhead
    contradiction
  | unterminatedString =>
    obtain ⟨quote, hquote, hq⟩ := h
    rw [hquote, Option.some.injEq] at hhead
    subst hhead
    simp at hq
  | expected =>
    rw [h.2.1] at hlast
    contradiction
  | _ =>
    obtain ⟨s, rfl, -⟩ := h
    exact absurd (Option.some.inj hhead) (by decide)

/-- what line, column and fragment of an error say about the texts before and after its place -/
structure ParseError.Placed (e : ParseError) (before after : List Char) : Prop where
  offset : e.offset = byteSize before
  line : e.line = before.count '\n' + 1
  column : 1 ≤ e.column ∧ e.column - 1 ≤ e.fragment.toList.length
  no_feed : '\n' ∉ e.fragment.toList
  /-- the fragment begins behind the last line feed before the offset, and has `column - 1` characters up to it -/
  fragment : ∃ earlier rest, before ++ after = earlier ++ (e.fragment.toList ++ rest) ∧
    (earlier = [] ∨ earlier.getLast? = some '\n') ∧ before = earlier ++ e.fragment.toList.take (e.column - 1)
  /-- no other position of the source has this line and this column -/
  unique : ∀ kind before' after', before' ++ after' = before ++ after →
    (ParseError.between kind before' after').line = e.line →
    (ParseError.between kind before' after').column = e.column →
    (ParseError.between kind before' after').offset = e.offset
  /-- where a carriage return is but the first half of a line ending, the fragment is the line -/
  whole : FeedsFollowReturns (before ++ after) →
    '\r' ∉ e.fragment.toList ∧ (linesOf (before ++ after))[e.line - 1]? = some e.fragment.toList

theorem ParseError.between_placed (kind : ParseErrorKind) (hsplit : ¬ SplitsEnding before after) :
    (ParseError.between kind before after).Placed before after where
  offset := rfl
  line := rfl
  column := by simp [ParseError.between]
  no_feed := by
    simp only [ParseError.between, String.toList_ofList, List.mem_append]
    rintro (h | h)
    · exact not_mem_lastLine before h
    · exact (mem_firstLine h).1 rfl
  fragment := by
    obtain ⟨earlier, hbefore, hend⟩ := exists_append_lastLine before
    obtain ⟨rest, hrest⟩ := firstLine_isPrefix after
    refine ⟨earlier, rest, ?_, hend, ?_⟩
    · simp only [ParseError.between, String.toList_ofList, List.append_assoc, hrest]
      rw [← List.append_assoc, ← hbefore]
    · simp only [ParseError.between, String.toList_ofList, Nat.add_sub_cancel, List.take_left']
      exact hbefore
  unique kind' before' after' happend hline hcolumn := by
    have hprefix : before' <+: before ++ after := ⟨after', happend⟩
    have heq := eq_of_prefixes hprefix (List.prefix_append before after) (Nat.succ.inj hline) (Nat.succ.inj hcolumn)
    exact congrArg byteSize heq
  whole hs := by
    simp only [ParseError.between, String.toList_ofList, Nat.add_sub_cancel]
    exact ⟨not_return_mem hs hsplit, getElem?_linesOf hs rfl hsplit⟩

end

/-- The offset of an error is a boundary inside its source, and line, column and fragment are those of the offset. -/
theorem parse_error_placed {source : String} {e : ParseError} (h : parse source = .error e) :
    (String.Pos.Raw.mk e.offset).IsValid source ∧ e.offset ≤ source.utf8ByteSize ∧
      ∃ before after, source.toList = before ++ after ∧ e.Placed before after := by
  obtain ⟨kind, before, after, hs, hkind, rfl⟩ := parse_fault h
  have hboundary : IsBoundary source.toList (byteSize before) := hs ▸ isBoundary_append before after
  refine ⟨isBoundary_iff_isValid.1 hboundary, ?_, before, after, hs,
    ParseError.between_placed kind hkind.not_splits⟩
  rw [← byteSize_toList]
  exact hboundary.le

theorem strayAtSign_placed :
    parse strayAtSign = .error ⟨.expectedElement, 7, 2, 2, " @/* x"⟩ ∧
      (String.Pos.Raw.mk 7).IsValid strayAtSign ∧ 7 ≤ strayAtSign.utf8ByteSize ∧
      ∃ before after, strayAtSign.toList = before ++ after ∧
        (ParseError.mk .expectedElement 7 2 2 " @/* x").Placed before after :=
  ⟨parse_strayAtSign, parse_error_placed parse_strayAtSign⟩

end BlockTemplates.Source
