/-
Words before a line feed. No name, super call, literal, comment or value goes on over a line feed at which it could have
ended, so a reader that has succeeded before the end of the text takes the same word off when a line feed and more text
follow. Gaps are the exception: a reader that has skipped the end of the text would skip more. So a head at the end of
the text is read again if what follows could not be a part of it.

Main statements: `readName_newline`, `readSuperCall_newline`, `readComment_newline`, `readLiteral_newline` (words),
`skipGap_newline` (gaps that end before the text), `readAttributes_newline` (attribute lists) and `readHead_newline`.
-/
import BlockTemplates.Proofs.Faults.Meaning
import Mathlib.Data.List.Basic

namespace BlockTemplates.Source

open Markup

/-! ## Runs of characters -/

section

variable {p : Char → Bool} {c : Char} (hc : p c = false) (s rest : List Char)
include hc

theorem takeWhile_append_cons : (s ++ c :: rest).takeWhile p = s.takeWhile p := by
  induction s with
  | nil => simp [hc]
  | cons d s ih => simp only [List.cons_append, List.takeWhile_cons, ih]

theorem dropWhile_append_cons : (s ++ c :: rest).dropWhile p = s.dropWhile p ++ c :: rest := by
  induction s with
  | nil => simp [hc]
  | cons d s ih =>
    simp only [List.cons_append, List.dropWhile_cons, ih]
    split
    · rfl
    · rfl

end

/-- of two texts, the spaces of the first one can be skipped before -/
theorem skipSpaces_append_left (s t : List Char) : skipSpaces (s ++ t) = skipSpaces (skipSpaces s ++ t) := by
  induction s with
  | nil => rfl
  | cons c s ih =>
    by_cases hc : isSpace c = true
    · rw [List.cons_append, skipSpaces_cons_space hc, skipSpaces_cons_space hc, ih]
    · rw [skipSpaces_eq_self (s := c :: s) (endsSpaces_cons (by simpa using hc))]

theorem EndsSpaces.append {s : List Char} (h : EndsSpaces s) (hne : s ≠ []) (t : List Char) : EndsSpaces (s ++ t) := by
  cases s with
  | nil => contradiction
  | cons c s => exact endsSpaces_cons (h c rfl)

theorem skipSpaces_append_of_ne_nil {s : List Char} (h : skipSpaces s ≠ []) (t : List Char) :
    skipSpaces (s ++ t) = skipSpaces s ++ t := by
  rw [skipSpaces_append_left, skipSpaces_eq_self ((endsSpaces_skipSpaces s).append h t)]

theorem skipSpaces_append_of_cons {c : Char} {s u : List Char} (h : skipSpaces s = c :: u) (t : List Char) :
    skipSpaces (s ++ t) = c :: (u ++ t) := by
  rw [skipSpaces_append_of_ne_nil (by simp [h]), h, List.cons_append]

theorem IsRest.ne_nil {r s : List Char} (h : IsRest r s) : s ≠ [] := List.ne_nil_of_length_pos (Nat.zero_lt_of_lt h.2)

/-! ## Names and super calls -/

section

variable (k : NameKind) (s more : List Char)

theorem ident_newline : ident k (s ++ '\n' :: more) = ident k s := by
  cases s with
  | nil =>
    have hfirst : k.isFirst '\n' = false := by cases k <;> rfl
    simp [ident, hfirst]
  | cons c s => simp only [List.cons_append, ident, takeWhile_append_cons (show isNameChar '\n' = false by decide)]

theorem afterNamespace_newline : afterNamespace k (s ++ '\n' :: more) = afterNamespace k s := by
  cases s with
  | nil => rfl
  | cons c s =>
    by_cases hc : c = ':'
    · subst hc
      simp only [List.cons_append, afterNamespace, ident_newline]
    · have hnone (t : List Char) : afterNamespace k (c :: t) = [] := by
        unfold afterNamespace
        split
        · rename_i heq
          exact absurd (List.cons.inj heq).1 hc
        · rfl
      rw [List.cons_append, hnone, hnone]

theorem longest_newline : k.longest (s ++ '\n' :: more) = k.longest s := by
  have hlength : (ident k s).length ≤ s.length := (ident_isPrefix k s).length_le
  simp only [NameKind.longest, ident_newline, List.drop_append_of_le_length hlength, afterNamespace_newline]

theorem readName_newline :
    readName k (s ++ '\n' :: more) = (readName k s).map fun p => (p.1, p.2 ++ '\n' :: more) := by
  have hlength : (k.longest s).length ≤ s.length := (longest_isPrefix k s).length_le
  unfold readName
  rw [longest_newline]
  split
  · rfl
  · rename_i heq
    simp only [List.drop_append_of_le_length hlength, Option.map_some]

end

/-- a word without line feed that stands at the front stands there already before the line feed -/
theorem isPrefix_of_newline {w s more : List Char} (hw : '\n' ∉ w) (h : w <+: s ++ '\n' :: more) : w <+: s := by
  rcases List.prefix_or_prefix_of_prefix h (List.prefix_append s ('\n' :: more)) with h' | ⟨t, rfl⟩
  · exact h'
  · cases t with
    | nil => simp
    | cons c t =>
      have hcons := (List.prefix_append_right_inj s).1 h
      rw [(List.cons_prefix_cons.1 hcons).1] at hw
      exact absurd (List.mem_append_right s List.mem_cons_self) hw

theorem readSuperCall_newline (s more : List Char) :
    readSuperCall (s ++ '\n' :: more) = (readSuperCall s).map fun p => (p.1, p.2 ++ '\n' :: more) := by
  have hfront {w t : List Char} (hw : '\n' ∉ w) (hs : s ++ '\n' :: more = w ++ t) : ∃ u, s = w ++ u := by
    obtain ⟨u, hu⟩ := isPrefix_of_newline hw ⟨t, hs.symm⟩
    exact ⟨u, hu.symm⟩
  rw [readSuperCall.eq_def s]
  split
  · rfl
  · rename_i u
    simp only [List.cons_append, readSuperCall, readName_newline]
    cases readName .element u with
    | none => rfl
    | some p =>
      obtain ⟨name, r⟩ := p
      cases r with
      | nil => rfl
      | cons c r =>
        by_cases hc : c = '!'
        · subst hc
          rfl
        · simp [hc]
  · rename_i hplain htarget
    unfold readSuperCall
    split
    · rename_i heq
      obtain ⟨u, rfl⟩ := hfront (w := "super!".toList) (by decide) heq
      exact absurd rfl (hplain u)
    · rename_i heq
      obtain ⟨u, rfl⟩ := hfront (w := "super.".toList) (by decide) heq
      exact absurd rfl (htarget u)
    · rfl

/-- super calls are read again where they are allowed -/
theorem superCallWhere_newline (allowed : Bool) (s more : List Char) :
    (if allowed then readSuperCall (s ++ '\n' :: more) else none) =
      (if allowed then readSuperCall s else none).map fun p => (p.1, p.2 ++ '\n' :: more) := by
  cases allowed with
  | true => exact readSuperCall_newline s more
  | false => rfl

/-! ## Comments, gaps and values -/

theorem atComment_newline (s more : List Char) : atComment (s ++ '\n' :: more) = atComment s := by
  rw [Bool.eq_iff_iff, atComment_iff, atComment_iff]
  constructor
  · rintro ⟨r, hs, hr⟩
    cases s with
    | nil => cases hs
    | cons c s =>
      obtain ⟨rfl, rfl⟩ := List.cons.inj hs
      refine ⟨s, rfl, ?_⟩
      cases s with
      | nil => simp at hr
      | cons d s => exact hr
  · rintro ⟨r, rfl, hr⟩
    refine ⟨r ++ '\n' :: more, rfl, ?_⟩
    cases r with
    | nil => simp at hr
    | cons d r => exact hr

section

variable {s r : List Char} (more : List Char)

theorem readComment_newline {c : Comment} (h : readComment s = .ok (c, r)) :
    readComment (s ++ '\n' :: more) = .ok (c, r ++ '\n' :: more) := by
  have hend : (!isLineEnd '\n') = false := by decide
  unfold readComment at h
  split at h
  · obtain ⟨rfl, rfl⟩ := Prod.mk.inj (Except.ok.inj h)
    rename_i v
    have htake := takeWhile_append_cons (p := (!isLineEnd ·)) hend v more
    have hdrop := dropWhile_append_cons (p := (!isLineEnd ·)) hend v more
    simp only [List.cons_append, readComment, htake, hdrop]
  · split at h
    · rename_i value rest hvalue
      obtain ⟨rfl, rfl⟩ := Prod.mk.inj (Except.ok.inj h)
      obtain ⟨v, rfl, rfl, hv⟩ := untilCommentEnd_eq_some hvalue
      have hread := readComment_block hv (rest ++ '\n' :: more)
      simpa only [List.cons_append, List.append_assoc, List.reverse_nil, List.nil_append] using hread
    · contradiction
  · contradiction
  · contradiction

theorem readLiteral_newline {value : String} (h : readLiteral s = .ok (value, r)) :
    readLiteral (s ++ '\n' :: more) = .ok (value, r ++ '\n' :: more) := by
  cases s with
  | nil => contradiction
  | cons quote s =>
    by_cases hq : isQuote quote = true
    · obtain ⟨cs, ws, hcs, rfl, rfl⟩ := (readLiteral_eq_ok hq).1 h
      rw [List.cons_append, readLiteral_eq_ok hq]
      exact ⟨cs, ws, hcs, by rw [List.append_assoc, List.cons_append], rfl⟩
    · rw [readLiteral, if_neg hq] at h
      contradiction

/-- a gap that does not reach the end of the text ends where it ended -/
theorem skipGap_newline (h : skipGap s = .ok r) (hr : r ≠ []) :
    skipGap (s ++ '\n' :: more) = .ok (r ++ '\n' :: more) := by
  fun_induction skipGap s with
  | case1 => contradiction
  | case2 s t hs c u hc ih =>
    have hspaces : EndsSpaces ('/' :: t) := hs ▸ endsSpaces_skipSpaces s
    rw [skipGap_eq, skipSpaces_append_left, hs, skipSpaces_eq_self (hspaces.append (by simp) _)]
    have hread := readComment_newline more hc
    rw [List.cons_append] at hread ⊢
    simp only [hread]
    exact ih h
  | case3 s hs =>
    obtain rfl := Except.ok.inj h
    have hspaces := endsSpaces_skipSpaces s
    rw [skipGap_eq, skipSpaces_append_left, skipSpaces_eq_self (hspaces.append hr _)]
    split
    · rename_i t heq
      cases hskip : skipSpaces s with
      | nil => contradiction
      | cons c u =>
        rw [hskip] at heq
        obtain ⟨rfl, -⟩ := List.cons.inj heq
        exact absurd hskip (hs u)
    · rfl

theorem readBareValue_newline {value : String} (h : readBareValue s = .ok (value, r)) :
    readBareValue (s ++ '\n' :: more) = .ok (value, r ++ '\n' :: more) := by
  have hend : (!endsBareValue '\n') = false := by decide
  have htake := takeWhile_append_cons (p := (!endsBareValue ·)) hend s more
  have hdrop := dropWhile_append_cons (p := (!endsBareValue ·)) hend s more
  unfold readBareValue at h ⊢
  rw [hdrop, htake]
  split at h
  · contradiction
  · rename_i hne
    obtain ⟨rfl, rfl⟩ := Prod.mk.inj (Except.ok.inj h)
    split
    · rename_i heq
      simp at heq
    · rfl

theorem readValue_newline {value : String} (h : readValue s = .ok (value, r)) :
    readValue (s ++ '\n' :: more) = .ok (value, r ++ '\n' :: more) := by
  unfold readValue at h
  split at h
  · cases h
  · rename_i c t hs
    unfold readValue
    rw [skipSpaces_append_of_cons hs]
    split at h
    · rename_i hquote
      simp only [hquote, if_true]
      exact readLiteral_newline more h
    · rename_i hquote
      simp only [hquote, Bool.false_eq_true, if_false]
      exact readBareValue_newline more h

/-! ## Attribute lists -/

theorem readAttribute_newline {a : Attribute} (h : readAttribute s = .ok (a, r)) (hr : r ≠ []) :
    readAttribute (s ++ '\n' :: more) = .ok (a, r ++ '\n' :: more) := by
  unfold readAttribute at h ⊢
  rw [readName_newline]
  split at h
  · contradiction
  · rename_i name t hname
    obtain ⟨u, hu, h⟩ := bind_eq_ok.1 h
    simp only [hname, Option.map_some]
    split at h
    · rename_i w
      obtain ⟨⟨value, v⟩, hv, h⟩ := bind_eq_ok.1 h
      obtain ⟨w', hw', h⟩ := bind_eq_ok.1 h
      obtain ⟨rfl, rfl⟩ := Prod.mk.inj (pure_eq_ok.1 h)
      rw [skipGap_newline more hu (by simp)]
      simp only [List.cons_append, bind, Except.bind, readValue_newline more hv, skipGap_newline more hw' hr]
      rfl
    · rename_i hne
      obtain ⟨rfl, rfl⟩ := Prod.mk.inj (pure_eq_ok.1 h)
      rw [skipGap_newline more hu hr]
      cases u with
      | nil => contradiction
      | cons c u =>
        simp only [List.cons_append, bind, Except.bind]
        split
        · rename_i heq
          obtain ⟨rfl, -⟩ := List.cons.inj heq
          exact absurd rfl (hne u)
        · rfl

theorem readEntry_newline {allowed : Bool} {e : Entry} (h : readEntry allowed s = .ok (e, r)) (hr : r ≠ []) :
    readEntry allowed (s ++ '\n' :: more) = .ok (e, r ++ '\n' :: more) := by
  unfold readEntry at h ⊢
  rw [superCallWhere_newline]
  split at h
  · rename_i call t hs
    obtain ⟨u, hu, h⟩ := bind_eq_ok.1 h
    obtain ⟨rfl, rfl⟩ := Prod.mk.inj (pure_eq_ok.1 h)
    simp only [hs, Option.map_some, bind, Except.bind, skipGap_newline more hu hr]
    rfl
  · rename_i hs
    obtain ⟨⟨a, t⟩, ht, h⟩ := bind_eq_ok.1 h
    obtain ⟨rfl, rfl⟩ := Prod.mk.inj (pure_eq_ok.1 h)
    simp only [hs, Option.map_none, bind, Except.bind, readAttribute_newline more ht hr]
    rfl

theorem readEntries_newline {allowed : Bool} {es : List Entry} (h : readEntries allowed s = .ok (es, r)) :
    readEntries allowed (s ++ '\n' :: more) = .ok (es, r ++ '\n' :: more) := by
  fun_induction readEntries allowed s generalizing es r with
  | case1 => contradiction
  | case2 allowed s e t he =>
    obtain ⟨rfl, rfl⟩ := Prod.mk.inj (Except.ok.inj h)
    rw [readEntries_eq, readEntry_newline more he (by simp)]
    rfl
  | case3 => contradiction
  | case4 => contradiction
  | case5 allowed s e t he u hu es' r' hes ih =>
    obtain ⟨rfl, rfl⟩ := Prod.mk.inj (Except.ok.inj h)
    have hrest := ih hes
    rw [readEntries_eq, readEntry_newline more he (by simp)]
    simp only [List.cons_append, skipGap_newline more hu (readEntries_isRest hes).ne_nil]
    cases e with
    | superCall call =>
      simp only [Entry.isSuperCall]
      simp only at hrest
      rw [hrest]
    | setting a =>
      simp only [Entry.isSuperCall]
      simp only at hrest
      rw [hrest]
  | case6 => contradiction

theorem readAttributes_newline {a : Attributes} (h : readAttributes s = .ok (a, r)) :
    readAttributes (s ++ '\n' :: more) = .ok (a, r ++ '\n' :: more) := by
  unfold readAttributes at h ⊢
  obtain ⟨u, hu, h⟩ := bind_eq_ok.1 h
  split at h
  · rename_i t
    obtain ⟨rfl, rfl⟩ := Prod.mk.inj (pure_eq_ok.1 h)
    rw [skipGap_newline more hu (by simp)]
    rfl
  · rename_i hne
    obtain ⟨⟨es, t⟩, hes, h⟩ := bind_eq_ok.1 h
    obtain ⟨rfl, rfl⟩ := Prod.mk.inj (pure_eq_ok.1 h)
    have hread := readEntries_newline more hes
    cases u with
    | nil => exact absurd rfl (readEntries_isRest hes).ne_nil
    | cons c u =>
      rw [skipGap_newline more hu (by simp)]
      rw [List.cons_append] at hread ⊢
      simp only [bind, Except.bind]
      split
      · rename_i heq
        obtain ⟨rfl, -⟩ := List.cons.inj heq
        exact absurd rfl (hne u)
      · simp only [hread]
        rfl

end

/-! ## Where readers end -/

section

variable {s r : List Char}

theorem readNames_endsSpaces {names : List String} (h : readNames s = .ok (names, r)) : EndsSpaces r := by
  fun_induction readNames s generalizing names r with
  | case1 => contradiction
  | case2 => contradiction
  | case3 s name t hn u hs names' r' hread ih =>
    obtain ⟨-, rfl⟩ := Prod.mk.inj (Except.ok.inj h)
    exact ih hread
  | case4 s name t hn =>
    obtain ⟨-, rfl⟩ := Prod.mk.inj (Except.ok.inj h)
    exact endsSpaces_skipSpaces t

theorem readNameList_endsSpaces {names : List (Option String)} (h : readNameList s = .ok (names, r)) :
    EndsSpaces r := by
  unfold readNameList at h
  split at h
  · obtain ⟨p, hp, h⟩ := bind_eq_ok.1 h
    obtain ⟨-, rfl⟩ := Prod.mk.inj (pure_eq_ok.1 h)
    exact readNames_endsSpaces hp
  · obtain ⟨p, hp, h⟩ := bind_eq_ok.1 h
    obtain ⟨-, rfl⟩ := Prod.mk.inj (pure_eq_ok.1 h)
    exact readNames_endsSpaces hp

theorem readNamePart_endsSpaces {names : Option (List (Option String))} (hs : EndsSpaces s)
    (h : readNamePart s = .ok (names, r)) : EndsSpaces r := by
  cases names with
  | none => exact readNamePart_none h ▸ hs
  | some names =>
    obtain ⟨t, -, -, hnames⟩ := readNamePart_eq_some h
    exact readNameList_endsSpaces hnames

theorem readAttributePart_eq_some {a : Attributes} (h : readAttributePart s = .ok (some a, r)) :
    ∃ t u, s = '(' :: t ∧ readAttributes t = .ok (a, u) ∧ r = skipSpaces u := by
  unfold readAttributePart at h
  split at h
  · rename_i t
    obtain ⟨p, hp, h⟩ := bind_eq_ok.1 h
    obtain ⟨ha, rfl⟩ := Prod.mk.inj (pure_eq_ok.1 h)
    obtain rfl := Option.some.inj ha
    exact ⟨t, p.2, rfl, hp, rfl⟩
  · cases h

/-- where no attributes are found, there is no parenthesis -/
theorem head?_of_readAttributePart (h : readAttributePart s = .ok (none, r)) : s.head? ≠ some '(' := by
  unfold readAttributePart at h
  split at h
  · obtain ⟨p, -, h⟩ := bind_eq_ok.1 h
    cases pure_eq_ok.1 h
  · rename_i hne
    intro hhead
    obtain ⟨t, rfl⟩ := List.head?_eq_some_iff.1 hhead
    exact hne t rfl

theorem readAttributePart_endsSpaces {a : Option Attributes} (hs : EndsSpaces s)
    (h : readAttributePart s = .ok (a, r)) : EndsSpaces r := by
  cases a with
  | none => exact readAttributePart_none h ▸ hs
  | some a =>
    obtain ⟨t, u, -, -, rfl⟩ := readAttributePart_eq_some h
    exact endsSpaces_skipSpaces u

/-- behind the tag, or where it is missing, no spaces are left before the names -/
theorem readTag_endsSpaces {names : Option (List (Option String))} (h : readNamePart (readTag s).2 = .ok (names, r))
    (hpresent : (readTag s).1 ≠ none ∨ names ≠ none) : EndsSpaces (readTag s).2 := by
  cases htag : readName .tag s with
  | some p =>
    simp only [readTag, htag]
    exact endsSpaces_skipSpaces p.2
  | none =>
    obtain ⟨l, rfl⟩ := Option.ne_none_iff_exists'.1 (hpresent.resolve_left (by simp [readTag, htag]))
    obtain ⟨t, ht, -⟩ := readNamePart_eq_some h
    rw [ht]
    exact endsSpaces_cons (by decide)

theorem readHead_endsSpaces {h : Head} (hr : readHead s = .ok (h, r)) : EndsSpaces r := by
  obtain ⟨v, -, htag, hnames, hpresent, hattributes⟩ := readHead_eq_ok hr
  have hu := readTag_endsSpaces hnames (htag ▸ hpresent)
  exact readAttributePart_endsSpaces (readNamePart_endsSpaces hu hnames) hattributes

end

/-! ## Heads -/

section

variable {s r : List Char} (more : List Char)

theorem EndsSpaces.skip_newline (h : EndsSpaces s) (hne : s ≠ []) :
    skipSpaces (s ++ '\n' :: more) = s ++ '\n' :: more := skipSpaces_eq_self (h.append hne _)

/-- what the text after a rest goes on with is the rest, or what follows the line feed if there is no rest -/
theorem head?_skipSpaces_newline (h : EndsSpaces s) {c : Char}
    (hc : (skipSpaces (s ++ '\n' :: more)).head? = some c) :
    s.head? = some c ∨ s = [] ∧ (skipSpaces ('\n' :: more)).head? = some c := by
  by_cases hs : s = []
  · subst hs
    exact .inr ⟨rfl, hc⟩
  · rw [h.skip_newline more hs, List.head?_append_of_ne_nil _ hs] at hc
    exact .inl hc

theorem readNames_newline {names : List String} (h : readNames s = .ok (names, r))
    (hcomma : r = [] → (skipSpaces ('\n' :: more)).head? ≠ some ',') :
    readNames (s ++ '\n' :: more) = .ok (names, skipSpaces (r ++ '\n' :: more)) := by
  fun_induction readNames s generalizing names r with
  | case1 => contradiction
  | case2 => contradiction
  | case3 s name t hn u hs names' r' hread ih =>
    obtain ⟨rfl, rfl⟩ := Prod.mk.inj (Except.ok.inj h)
    have hne : skipSpaces u ≠ [] := (readNames_isRest hread).ne_nil
    rw [readNames_eq, readName_newline, hn]
    simp only [Option.map_some, skipSpaces_append_of_cons hs, skipSpaces_append_of_ne_nil hne, ih hread hcomma]
  | case4 s name t hn hno =>
    obtain ⟨rfl, rfl⟩ := Prod.mk.inj (Except.ok.inj h)
    rw [readNames_eq, readName_newline, hn]
    simp only [Option.map_some]
    rw [skipSpaces_append_left]
    split
    · rename_i u heq
      have hhead := congrArg List.head? heq
      rcases head?_skipSpaces_newline more (endsSpaces_skipSpaces t) hhead with hhead | ⟨hnil, hhead⟩
      · obtain ⟨v, hv⟩ := List.head?_eq_some_iff.1 hhead
        exact absurd hv (hno v)
      · exact absurd hhead (hcomma hnil)
    · rfl

theorem readNameList_newline {names : List (Option String)} (h : readNameList s = .ok (names, r))
    (hcomma : r = [] → (skipSpaces ('\n' :: more)).head? ≠ some ',') :
    readNameList (s ++ '\n' :: more) = .ok (names, skipSpaces (r ++ '\n' :: more)) := by
  have hne {t : List Char} {p : List String × List Char} (hp : readNames t = .ok p) : t ≠ [] :=
    (readNames_isRest (show _ = Except.ok (p.1, p.2) from hp)).ne_nil
  unfold readNameList at h ⊢
  split at h
  · rename_i t hs
    obtain ⟨p, hp, h⟩ := bind_eq_ok.1 h
    obtain ⟨rfl, rfl⟩ := Prod.mk.inj (pure_eq_ok.1 h)
    simp only [skipSpaces_append_of_cons hs, skipSpaces_append_of_ne_nil (hne hp), readNames_newline more hp hcomma,
      bind, Except.bind]
    rfl
  · rename_i hno
    obtain ⟨p, hp, h⟩ := bind_eq_ok.1 h
    obtain ⟨rfl, rfl⟩ := Prod.mk.inj (pure_eq_ok.1 h)
    have hread := readNames_newline more hp hcomma
    rw [skipSpaces_append_of_ne_nil (hne hp)]
    split
    · rename_i heq
      obtain ⟨u, hu⟩ : ∃ u, skipSpaces s = ',' :: u := by
        apply List.head?_eq_some_iff.1
        rw [← List.head?_append_of_ne_nil _ (hne hp), heq]
        rfl
      exact absurd hu (hno u)
    · simp only [hread, bind, Except.bind]
      rfl

theorem readTag_newline (hs : EndsSpaces (readTag s).2) (hne : s ≠ []) :
    readTag (s ++ '\n' :: more) = ((readTag s).1, skipSpaces ((readTag s).2 ++ '\n' :: more)) := by
  unfold readTag at hs ⊢
  rw [readName_newline]
  cases hname : readName .tag s with
  | none =>
    rw [hname] at hs
    simp only [Option.map_none, hs.skip_newline more hne]
  | some p => simp only [Option.map_some, ← skipSpaces_append_left]

theorem readNamePart_newline {names : Option (List (Option String))} (hs : EndsSpaces s)
    (h : readNamePart s = .ok (names, r)) (hcomma : r = [] → (skipSpaces ('\n' :: more)).head? ≠ some ',')
    (hslash : names = none → r = [] → (skipSpaces ('\n' :: more)).head? = some '/' →
      atComment (skipSpaces ('\n' :: more)) = true) :
    readNamePart (skipSpaces (s ++ '\n' :: more)) = .ok (names, skipSpaces (r ++ '\n' :: more)) := by
  cases names with
  | none =>
    obtain rfl := readNamePart_none h
    apply readNamePart_absent
    intro hhead
    rcases head?_skipSpaces_newline more hs hhead with hhead' | ⟨rfl, hhead'⟩
    · rw [hs.skip_newline more (by rintro rfl; contradiction), atComment_newline]
      exact atComment_of_readNamePart h hhead'
    · exact hslash rfl rfl hhead'
  | some names =>
    obtain ⟨t, rfl, hat, hnames⟩ := readNamePart_eq_some h
    have hat' := atComment_newline ('/' :: t) more
    rw [hs.skip_newline more (by simp)]
    rw [List.cons_append, hat] at hat'
    simp only [List.cons_append, readNamePart, hat', Bool.false_eq_true, if_false,
      readNameList_newline more hnames hcomma, bind, Except.bind]
    rfl

theorem readAttributePart_newline {a : Option Attributes} (hs : EndsSpaces s) (h : readAttributePart s = .ok (a, r))
    (hparen : a = none → r = [] → (skipSpaces ('\n' :: more)).head? ≠ some '(') :
    readAttributePart (skipSpaces (s ++ '\n' :: more)) = .ok (a, skipSpaces (r ++ '\n' :: more)) := by
  cases a with
  | none =>
    obtain rfl := readAttributePart_none h
    apply readAttributePart_absent
    intro hhead
    rcases head?_skipSpaces_newline more hs hhead with hhead' | ⟨rfl, hhead'⟩
    · exact head?_of_readAttributePart h hhead'
    · exact hparen rfl rfl hhead'
  | some a =>
    obtain ⟨t, u, rfl, ha, rfl⟩ := readAttributePart_eq_some h
    rw [hs.skip_newline more (by simp), ← skipSpaces_append_left]
    simp only [List.cons_append, readAttributePart, readAttributes_newline more ha, bind, Except.bind]
    rfl

theorem readHelperMark_newline (hs : s ≠ []) :
    readHelperMark (s ++ '\n' :: more) = ((readHelperMark s).1, (readHelperMark s).2 ++ '\n' :: more) := by
  rcases readHelperMark_eq s with hmark | ⟨-, hmark⟩
  · rw [hmark]
    rfl
  · rw [readHelperMark_absent hmark, readHelperMark_absent (by rwa [List.head?_append_of_ne_nil _ hs])]

/-- a head is read again, and no more than it, unless it ends the text and what follows could be a part of it -/
theorem readHead_newline {h : Head} (hr : readHead s = .ok (h, r)) (hend : r = [] → EndsHead h ('\n' :: more)) :
    readHead (s ++ '\n' :: more) = .ok (h, skipSpaces (r ++ '\n' :: more)) := by
  have hne : s ≠ [] := (readHead_isRest hr).ne_nil
  obtain ⟨v, hmark, htag, hnames, hpresent, hattributes⟩ := readHead_eq_ok hr
  generalize hm : readHelperMark s = m at hmark htag hnames
  obtain ⟨mark, t⟩ := m
  dsimp only at hmark htag hnames
  have hne' : t ≠ [] := by
    rintro rfl
    have hnone : h.names = none := (Prod.mk.inj (Except.ok.inj hnames)).1.symm
    exact hpresent.elim (fun h => h htag) (fun h => h hnone)
  have hu := readTag_endsSpaces hnames (htag ▸ hpresent)
  have hv := readNamePart_endsSpaces hu hnames
  have hnil (hv : v = []) : r = [] ∧ h.attributes = none := by
    subst hv
    obtain ⟨hnone, rfl⟩ := Prod.mk.inj (Except.ok.inj hattributes)
    exact ⟨rfl, hnone.symm⟩
  have hmark' : readHelperMark (s ++ '\n' :: more) = (h.isHelper, t ++ '\n' :: more) := by
    rw [readHelperMark_newline more hne, hm, hmark]
  have htag' : readTag (t ++ '\n' :: more) = (h.tagName, skipSpaces ((readTag t).2 ++ '\n' :: more)) := by
    rw [readTag_newline more hu hne', htag]
  have hnames' : readNamePart (skipSpaces ((readTag t).2 ++ '\n' :: more)) =
      .ok (h.names, skipSpaces (v ++ '\n' :: more)) := by
    apply readNamePart_newline more hu hnames
    · intro hv' hc
      exact ((hend (hnil hv').1).next ',' hc).2 rfl
    · intro hnone hv' hc
      exact (hend (hnil hv').1).slash hnone (hnil hv').2 hc
  have hattributes' : readAttributePart (skipSpaces (v ++ '\n' :: more)) =
      .ok (h.attributes, skipSpaces (r ++ '\n' :: more)) := by
    apply readAttributePart_newline more hv hattributes
    intro _ hr' hc
    exact ((hend hr').next '(' hc).1 rfl
  exact readHead_of_parts hmark' htag' hnames' hpresent hattributes'

end

end BlockTemplates.Source
