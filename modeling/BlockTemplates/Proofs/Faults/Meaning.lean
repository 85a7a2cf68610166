/-
What an error says about its source. Every kind of error is a statement about the text at its place; a reader that
fails has found a place at which the statement of its error holds.

Main statements: one `_error` lemma for each reader, `contentOf_error` and `parse_error_holds`.
-/
import BlockTemplates.Proofs.Layout.Parsed
import BlockTemplates.Proofs.Layout.Literals
import Mathlib.Data.List.TakeWhile

namespace BlockTemplates.Source

open Text Markup

/-! ## What errors say -/

/-- no name of the kind stands at the front -/
def NoName (k : NameKind) (s : List Char) : Prop := ∀ name, IsNameText k name → ¬ name <+: s

/-- what an error of a kind says about the texts before and after its place -/
def ParseErrorKind.Says : ParseErrorKind → List Char → List Char → Prop
  | .invalidBlockName, before, after => before.getLast? = some '#' ∧ NoName .block after
  -- behind an at sign, if there is one, stand neither a tag nor a slash that starts no comment
  | .expectedElement, _, after =>
    EndsSpaces after ∧ ∃ s, (after = '@' :: s ∨ after = s ∧ after.head? ≠ some '@') ∧ NoName .tag s ∧
      ∀ r, s = '/' :: r → r.head? = some '/' ∨ r.head? = some '*'
  | .expectedElementName, _, after => EndsSpaces after ∧ NoName .element after
  | .invalidAttributeName, _, after => EndsSpaces after ∧ NoName .attr after
  | .unterminatedAttribute, _, after => ∀ c ∈ after, c ≠ '\r' ∧ c ≠ '\n' ∧ c ≠ ',' ∧ c ≠ ')'
  | .invalidAttributes, _, after => EndsSpaces after ∧ after.head? ≠ some ',' ∧ after.head? ≠ some ')'
  | .missingClosingBrace, _, after => after.head? = some '\x7b'
  | .unterminatedComment, _, after => ∃ s, after = '/' :: '*' :: s ∧ Unclosed s
  | .unterminatedString, _, after => ∃ quote, after.head? = some quote ∧ (quote = '\'' ∨ quote = '"' ∨ quote = '`')
  | .malformedHexEscape, _, after => ∃ s, after = '\\' :: 'x' :: s ∧ ¬ BeginsHex s
  | .malformedUnicodeEscape, _, after => ∃ s, after = '\\' :: 'u' :: s ∧ ¬ BeginsUnicode s
  | .unknownEscape c, _, after => ∃ s, after = '\\' :: c :: s ∧ ¬ StartsEscape c
  | .expected c found, before, after =>
    c = '/' ∧ before.getLast? = some '/' ∧ after.head? = found ∧ found ≠ some '/' ∧ found ≠ some '*'

/-- what the fault says holds at its place in the text -/
def Fault.Holds (f : Fault) (s : List Char) : Prop := ∃ before, s = before ++ f.rest ∧ f.kind.Says before f.rest

section

variable {kind : ParseErrorKind} {before after s t r : List Char} {f : Fault}

theorem ParseErrorKind.Says.append_left (h : kind.Says before after) (t : List Char) :
    kind.Says (t ++ before) after := by
  have hlast {c : Char} (hc : before.getLast? = some c) : (t ++ before).getLast? = some c := by
    rw [List.getLast?_append, hc, Option.some_or]
  cases kind with
  | invalidBlockName => exact ⟨hlast h.1, h.2⟩
  | expected => exact ⟨h.1, hlast h.2.1, h.2.2⟩
  | _ => exact h

theorem Fault.Holds.of_suffix (h : f.Holds s) (hs : s <:+ t) : f.Holds t := by
  obtain ⟨before, rfl, hkind⟩ := h
  obtain ⟨u, rfl⟩ := hs
  exact ⟨u ++ before, (List.append_assoc ..).symm, hkind.append_left u⟩

/-- a statement about nothing but the text from the fault on -/
theorem Fault.Holds.here (h : f.kind.Says [] f.rest) : f.Holds f.rest := ⟨[], rfl, h⟩

/-- what a reader composed of two fails with -/
theorem bind_eq_error {α β : Type} {x : Except Fault α} {g : α → Except Fault β} :
    x >>= g = .error f ↔ x = .error f ∨ ∃ a, x = .ok a ∧ g a = .error f := by
  cases x with
  | error e => simp [bind, Except.bind]
  | ok a => simp [bind, Except.bind]

theorem map_eq_error {α β : Type} {x : Except Fault α} {g : α → β} : x.map g = .error f ↔ x = .error f := by
  cases x with
  | error e => simp [Except.map]
  | ok a => simp [Except.map]

/-! ## Names -/

theorem noName_of_longest {k : NameKind} (h : k.longest s = []) : NoName k s := by
  intro name hname hs
  have hfront := hname.isPrefix_longest hs
  rw [h] at hfront
  exact hname.ne_nil (List.prefix_nil.1 hfront)

theorem longest_of_readName {k : NameKind} (h : readName k s = none) : k.longest s = [] := by
  unfold readName at h
  split at h
  · rename_i hnil
    exact hnil
  · contradiction

theorem noName_of_readName {k : NameKind} (h : readName k s = none) : NoName k s :=
  noName_of_longest (longest_of_readName h)

/-! ## Comments and gaps -/

theorem untilCommentEnd_eq_none {read : List Char} (h : untilCommentEnd read s = none) : Unclosed s := by
  fun_induction untilCommentEnd read s with
  | case1 => contradiction
  | case2 read c s hne ih =>
    refine unclosed_cons (ih h) fun w hw => ?_
    obtain ⟨rfl, rfl⟩ := List.cons.inj hw
    exact hne _ rfl rfl
  | case3 => exact unclosed_nil

theorem readComment_error (h : readComment ('/' :: s) = .error f) : f.Holds ('/' :: s) := by
  unfold readComment at h
  split at h
  · contradiction
  · split at h
    · contradiction
    · rename_i heq _ hu
      obtain ⟨-, rfl⟩ := List.cons.inj heq
      obtain rfl := Except.error.inj h
      exact .here ⟨_, rfl, untilCommentEnd_eq_none hu⟩
  · rename_i hslash hstar heq
    obtain ⟨-, rfl⟩ := List.cons.inj heq
    obtain rfl := Except.error.inj h
    refine ⟨['/'], rfl, rfl, rfl, rfl, ?_, ?_⟩
    · intro hhead
      obtain ⟨r, rfl⟩ := List.head?_eq_some_iff.1 hhead
      exact hslash r rfl
    · intro hhead
      obtain ⟨r, rfl⟩ := List.head?_eq_some_iff.1 hhead
      exact hstar r rfl
  · rename_i hne
    exact absurd rfl (hne s)

theorem skipGap_error (h : skipGap s = .error f) : f.Holds s := by
  fun_induction skipGap s with
  | case1 s t hs g hc =>
    obtain rfl := Except.error.inj h
    exact (readComment_error hc).of_suffix (hs ▸ skipSpaces_suffix s)
  | case2 s t hs c r hc ih =>
    exact (ih h).of_suffix ((readComment_isRest hc).1.trans (hs ▸ skipSpaces_suffix s))
  | case3 => contradiction

theorem skipGap_endsSpaces (h : skipGap s = .ok r) : EndsSpaces r := by
  fun_induction skipGap s with
  | case1 => contradiction
  | case2 s t hs c r' hc ih => exact ih h
  | case3 s hs =>
    obtain rfl := Except.ok.inj h
    exact endsSpaces_skipSpaces s

/-! ## Values -/

theorem isQuote_iff {c : Char} : isQuote c = true ↔ c = '\'' ∨ c = '"' ∨ c = '`' := by
  simp [isQuote, or_assoc]

theorem readLiteral_error {quote : Char} (hq : isQuote quote = true) (h : readLiteral (quote :: s) = .error f) :
    f.Holds (quote :: s) := by
  obtain ⟨cs, ws, u, kind, -, rfl, hu, rfl⟩ := (readLiteral_eq_error hq).1 h
  have hopening : (ParseErrorKind.unterminatedString.inLiteral (quote :: (ws ++ u)) u).Holds (quote :: (ws ++ u)) :=
    .here ⟨quote, rfl, isQuote_iff.1 hq⟩
  -- the statement of an escape's fault is about the text from its backslash on
  have hbackslash {kind : ParseErrorKind} (hne : kind ≠ .unterminatedString) (hkind : kind.Says [] u) :
      (kind.inLiteral (quote :: (ws ++ u)) u).Holds (quote :: (ws ++ u)) := by
    unfold ParseErrorKind.inLiteral
    rw [if_neg hne]
    have hhere : (⟨kind, u⟩ : Fault).Holds u := .here hkind
    exact hhere.of_suffix ⟨quote :: ws, rfl⟩
  cases hu with
  | ended => exact hopening
  | endedInEscape => exact hopening
  | lineEnd => exact hopening
  | hex hno => exact hbackslash (by simp) ⟨_, rfl, hno⟩
  | unicode hno => exact hbackslash (by simp) ⟨_, rfl, hno⟩
  | unknown hno => exact hbackslash (by simp) ⟨_, rfl, hno⟩

theorem readBareValue_error (h : readBareValue s = .error f) : f.Holds s := by
  unfold readBareValue at h
  split at h
  · rename_i hnil
    obtain rfl := Except.error.inj h
    refine .here fun c hc => ?_
    have := List.dropWhile_eq_nil_iff.1 hnil c hc
    simpa [endsBareValue, isLineEnd, and_assoc] using this
  · contradiction

theorem readValue_error (h : readValue s = .error f) : f.Holds s := by
  unfold readValue at h
  split at h
  · exact (readBareValue_error h).of_suffix List.nil_suffix
  · rename_i c t hs
    refine Fault.Holds.of_suffix ?_ (hs ▸ skipSpaces_suffix s)
    split at h
    · rename_i hq
      exact readLiteral_error hq h
    · exact readBareValue_error h

/-! ## Attribute lists -/

theorem readAttribute_error (hs : EndsSpaces s) (h : readAttribute s = .error f) : f.Holds s := by
  unfold readAttribute at h
  split at h
  · rename_i hname
    obtain rfl := Except.error.inj h
    exact .here ⟨hs, noName_of_readName hname⟩
  · rename_i name t hname
    refine Fault.Holds.of_suffix ?_ (readName_isRest hname).1
    rcases bind_eq_error.1 h with h | ⟨u, hu, h⟩
    · exact skipGap_error h
    refine Fault.Holds.of_suffix ?_ (skipGap_suffix hu)
    split at h
    · rename_i v
      refine Fault.Holds.of_suffix ?_ (List.suffix_cons '=' v)
      rcases bind_eq_error.1 h with h | ⟨⟨value, w⟩, hw, h⟩
      · exact readValue_error h
      rcases bind_eq_error.1 h with h | ⟨x, hx, h⟩
      · exact (skipGap_error h).of_suffix (readValue_suffix hw)
      · contradiction
    · contradiction

theorem readEntry_error {allowed : Bool} (hs : EndsSpaces s) (h : readEntry allowed s = .error f) : f.Holds s := by
  unfold readEntry at h
  split at h
  · rename_i call t hcall
    have ht : IsRest t s := by
      cases allowed with
      | true => exact readSuperCall_isRest hcall
      | false => contradiction
    rcases bind_eq_error.1 h with h | ⟨u, hu, h⟩
    · exact (skipGap_error h).of_suffix ht.1
    · contradiction
  · rcases bind_eq_error.1 h with h | ⟨p, hp, h⟩
    · exact readAttribute_error hs h
    · contradiction

theorem readAttribute_endsSpaces {a : Attribute} (h : readAttribute s = .ok (a, r)) : EndsSpaces r := by
  unfold readAttribute at h
  split at h
  · contradiction
  · obtain ⟨u, hu, h⟩ := bind_eq_ok.1 h
    split at h
    · obtain ⟨p, -, h⟩ := bind_eq_ok.1 h
      obtain ⟨q, hq, h⟩ := bind_eq_ok.1 h
      obtain ⟨-, rfl⟩ := Prod.mk.inj (pure_eq_ok.1 h)
      exact skipGap_endsSpaces hq
    · obtain ⟨-, rfl⟩ := Prod.mk.inj (pure_eq_ok.1 h)
      exact skipGap_endsSpaces hu

theorem readEntry_endsSpaces {allowed : Bool} {e : Entry} (h : readEntry allowed s = .ok (e, r)) : EndsSpaces r := by
  unfold readEntry at h
  split at h
  · obtain ⟨u, hu, h⟩ := bind_eq_ok.1 h
    obtain ⟨-, rfl⟩ := Prod.mk.inj (pure_eq_ok.1 h)
    exact skipGap_endsSpaces hu
  · obtain ⟨p, hp, h⟩ := bind_eq_ok.1 h
    obtain ⟨-, rfl⟩ := Prod.mk.inj (pure_eq_ok.1 h)
    exact readAttribute_endsSpaces hp

theorem readEntries_error {allowed : Bool} (hs : EndsSpaces s) (h : readEntries allowed s = .error f) : f.Holds s := by
  fun_induction readEntries allowed s with
  | case1 allowed s g he =>
    obtain rfl := Except.error.inj h
    exact readEntry_error hs he
  | case2 => contradiction
  | case3 allowed s e t he g hg =>
    obtain rfl := Except.error.inj h
    exact (skipGap_error hg).of_suffix ((List.suffix_cons ',' t).trans (readEntry_isRest he).1)
  | case4 allowed s e t he u hg g hes ih =>
    obtain rfl := Except.error.inj h
    have hu : u <:+ s := (skipGap_suffix hg).trans ((List.suffix_cons ',' t).trans (readEntry_isRest he).1)
    exact (ih (skipGap_endsSpaces hg) hes).of_suffix hu
  | case5 => contradiction
  | case6 allowed s e t hclose hcomma he =>
    obtain rfl := Except.error.inj h
    refine Fault.Holds.of_suffix (.here ⟨readEntry_endsSpaces he, ?_, ?_⟩) (readEntry_isRest he).1
    · intro hhead
      obtain ⟨u, hu⟩ := List.head?_eq_some_iff.1 hhead
      exact hcomma u hu
    · intro hhead
      obtain ⟨u, hu⟩ := List.head?_eq_some_iff.1 hhead
      exact hclose u hu

theorem readAttributes_error (h : readAttributes s = .error f) : f.Holds s := by
  unfold readAttributes at h
  rcases bind_eq_error.1 h with h | ⟨u, hu, h⟩
  · exact skipGap_error h
  refine Fault.Holds.of_suffix ?_ (skipGap_suffix hu)
  split at h
  · contradiction
  · rcases bind_eq_error.1 h with h | ⟨p, hp, h⟩
    · exact readEntries_error (skipGap_endsSpaces hu) h
    · contradiction

/-! ## Heads -/

theorem readNames_error (hs : EndsSpaces s) (h : readNames s = .error f) : f.Holds s := by
  fun_induction readNames s with
  | case1 s hname =>
    obtain rfl := Except.error.inj h
    exact .here ⟨hs, noName_of_readName hname⟩
  | case2 s name t hname u hu g hread ih =>
    obtain rfl := Except.error.inj h
    have ht : skipSpaces u <:+ s :=
      (skipSpaces_suffix u).trans ((List.suffix_cons ',' u).trans
        (hu ▸ (skipSpaces_suffix t).trans (readName_isRest hname).1))
    exact (ih (endsSpaces_skipSpaces u) hread).of_suffix ht
  | case3 => contradiction
  | case4 => contradiction

theorem readNameList_error (h : readNameList s = .error f) : f.Holds s := by
  unfold readNameList at h
  split at h
  · rename_i t ht
    rcases bind_eq_error.1 h with h | ⟨p, hp, h⟩
    · have hs : skipSpaces t <:+ s :=
        (skipSpaces_suffix t).trans ((List.suffix_cons ',' t).trans (ht ▸ skipSpaces_suffix s))
      exact (readNames_error (endsSpaces_skipSpaces t) h).of_suffix hs
    · contradiction
  · rcases bind_eq_error.1 h with h | ⟨p, hp, h⟩
    · exact (readNames_error (endsSpaces_skipSpaces s) h).of_suffix (skipSpaces_suffix s)
    · contradiction

theorem readNamePart_error (h : readNamePart s = .error f) : f.Holds s := by
  unfold readNamePart at h
  split at h
  · split at h
    · contradiction
    · rcases bind_eq_error.1 h with h | ⟨p, hp, h⟩
      · exact (readNameList_error h).of_suffix (List.suffix_cons ..)
      · contradiction
  · contradiction

theorem readAttributePart_error (h : readAttributePart s = .error f) : f.Holds s := by
  unfold readAttributePart at h
  split at h
  · rcases bind_eq_error.1 h with h | ⟨p, hp, h⟩
    · exact (readAttributes_error h).of_suffix (List.suffix_cons ..)
    · contradiction
  · contradiction

theorem readHelperMark_eq (s : List Char) :
    s = '@' :: (readHelperMark s).2 ∨ s = (readHelperMark s).2 ∧ s.head? ≠ some '@' := by
  unfold readHelperMark
  split
  · exact .inl rfl
  · rename_i hne
    refine .inr ⟨rfl, fun h => ?_⟩
    obtain ⟨t, rfl⟩ := List.head?_eq_some_iff.1 h
    exact hne t rfl

theorem readTag_eq_none (h : (readTag s).1 = none) : readName .tag s = none ∧ (readTag s).2 = s := by
  unfold readTag at h ⊢
  split
  · rename_i hname
    simp [hname] at h
  · rename_i hname
    exact ⟨hname, rfl⟩

theorem atComment_iff : atComment s = true ↔ ∃ r, s = '/' :: r ∧ (r.head? = some '/' ∨ r.head? = some '*') := by
  constructor
  · intro h
    unfold atComment at h
    split at h
    · exact ⟨_, rfl, .inl rfl⟩
    · exact ⟨_, rfl, .inr rfl⟩
    · contradiction
  · rintro ⟨r, rfl, h | h⟩
    all_goals
      obtain ⟨t, rfl⟩ := List.head?_eq_some_iff.1 h
      rfl

theorem readHead_error (hs : EndsSpaces s) (h : readHead s = .error f) : f.Holds s := by
  have hmark := readHelperMark_eq s
  have hmark' := readHelperMark_suffix s
  unfold readHead at h
  generalize readHelperMark s = m at h hmark hmark'
  obtain ⟨helper, t⟩ := m
  dsimp only at h hmark hmark'
  have htag := readTag_suffix t
  have hnone := @readTag_eq_none t
  generalize readTag t = p at h htag hnone
  obtain ⟨tag, u⟩ := p
  dsimp only at h htag hnone
  rcases bind_eq_error.1 h with h | ⟨⟨names, v⟩, hnames, h⟩
  · exact (readNamePart_error h).of_suffix (htag.trans hmark')
  dsimp only at h
  split at h
  · rename_i habsent
    simp only [Bool.and_eq_true, Option.isNone_iff_eq_none] at habsent
    obtain ⟨rfl, rfl⟩ := habsent
    obtain ⟨hname, rfl⟩ := hnone rfl
    obtain rfl := Except.error.inj h
    refine .here ⟨hs, u, hmark, noName_of_readName hname, ?_⟩
    rintro r rfl
    obtain ⟨r', hr, hcomment⟩ := atComment_iff.1 (atComment_of_readNamePart hnames rfl)
    rwa [(List.cons.inj hr).2]
  · rcases bind_eq_error.1 h with h | ⟨q, hq, h⟩
    · have hv : v <:+ u := by
        cases names with
        | some names => exact (readNamePart_isRest hnames).1
        | none => exact readNamePart_none hnames ▸ List.suffix_rfl
      exact (readAttributePart_error h).of_suffix (hv.trans (htag.trans hmark'))
    · contradiction

/-! ## Content -/

theorem readItem_error {inBraces : Bool} (h : readItem inBraces s = .error f) : f.Holds s := by
  unfold readItem at h
  split at h
  · contradiction
  · rename_i c t ht
    refine Fault.Holds.of_suffix ?_ (ht ▸ skipSpaces_suffix s)
    have hends : EndsSpaces (c :: t) := ht ▸ endsSpaces_skipSpaces s
    split at h
    · rename_i hq
      rcases bind_eq_error.1 h with h | ⟨p, hp, h⟩
      · exact readLiteral_error hq h
      · contradiction
    · split at h
      · rename_i hat
        obtain ⟨r, hr, -⟩ := atComment_iff.1 hat
        rcases bind_eq_error.1 h with h | ⟨p, hp, h⟩
        · rw [hr] at h ⊢
          exact readComment_error h
        · contradiction
      · split at h
        · contradiction
        · split at h
          · contradiction
          · rcases bind_eq_error.1 h with h | ⟨p, hp, h⟩
            · exact readHead_error hends h
            · contradiction

/-- reading content fails inside it, or at the end of the source because of its own opening brace -/
theorem contentOf_error {opening : Option (List Char)} (h : contentOf opening s = .error f) :
    f.Holds s ∨ ∃ brace, opening = some brace ∧ f = ⟨.missingClosingBrace, brace⟩ := by
  generalize hlength : s.length = n
  induction n using Nat.strongRecOn generalizing opening s f with
  | ind n ih =>
    subst hlength
    have later {t : List Char} (ht : IsRest t s) (h : contentOf opening t = .error f) :
        f.Holds s ∨ ∃ brace, opening = some brace ∧ f = ⟨.missingClosingBrace, brace⟩ :=
      (ih _ ht.2 h rfl).imp_left (·.of_suffix ht.1)
    rw [contentOf_eq] at h
    split at h
    · rename_i hitem
      obtain rfl := Except.error.inj h
      exact .inl (readItem_error hitem)
    · split at h
      · rename_i brace _
        exact .inr ⟨brace, rfl, (Except.error.inj h).symm⟩
      · contradiction
    · contradiction
    · rename_i n t hitem
      exact later (readItem_isRest hitem (by simp)) (map_eq_error.1 h)
    · rename_i e t hitem
      have ht := readItem_isRest hitem (by simp)
      have ht' : IsRest t s := .suffix_trans (List.suffix_cons _ _) ht
      rcases bind_eq_error.1 h with h | ⟨⟨content, u⟩, hu, h⟩
      · left
        rcases ih _ ht'.2 h rfl with h | ⟨brace, hbrace, rfl⟩
        · exact h.of_suffix ht'.1
        · obtain rfl := Option.some.inj hbrace
          exact Fault.Holds.of_suffix (.here rfl) ht.1
      · exact later (.suffix_trans (contentOf_suffix hu) ht') (map_eq_error.1 h)
    · rename_i e t _ hitem
      exact later (readItem_isRest hitem (by simp)) (map_eq_error.1 h)

/-! ## Documents -/

theorem readLeadingComments_error (h : readLeadingComments s = .error f) : f.Holds s := by
  fun_induction readLeadingComments s with
  | case1 s hat g hread =>
    obtain rfl := Except.error.inj h
    obtain ⟨r, hr, -⟩ := atComment_iff.1 hat
    rw [hr] at hread
    exact (readComment_error hread).of_suffix (hr ▸ skipSpaces_suffix s)
  | case2 s hat c r hread g hcomments ih =>
    obtain rfl := Except.error.inj h
    exact (ih hcomments).of_suffix ((readComment_isRest hread).1.trans (skipSpaces_suffix s))
  | case3 => contradiction
  | case4 => contradiction

theorem readLeadingComments_suffix {ns : List Node} (h : readLeadingComments s = .ok (ns, r)) : r <:+ s := by
  fun_induction readLeadingComments s generalizing ns r with
  | case1 => contradiction
  | case2 => contradiction
  | case3 s hat c t hread ns' t' hcomments ih =>
    obtain ⟨-, rfl⟩ := Prod.mk.inj (Except.ok.inj h)
    exact (ih hcomments).trans ((readComment_isRest hread).1.trans (skipSpaces_suffix s))
  | case4 s hat =>
    obtain ⟨-, rfl⟩ := Prod.mk.inj (Except.ok.inj h)
    exact skipSpaces_suffix s

theorem readBlockName_error (h : readBlockName s = .error f) : f.Holds s := by
  unfold readBlockName at h
  split at h
  · split at h
    · contradiction
    · rename_i hname
      obtain rfl := Except.error.inj h
      exact ⟨['#'], rfl, rfl, noName_of_readName hname⟩
  · contradiction

theorem readBlockName_suffix {name : Option String} (h : readBlockName s = .ok (name, r)) : r <:+ s := by
  unfold readBlockName at h
  split at h
  · split at h
    · rename_i hname
      obtain ⟨-, rfl⟩ := Prod.mk.inj (Except.ok.inj h)
      exact (readName_isRest hname).1.trans (List.suffix_cons _ _)
    · contradiction
  · obtain ⟨-, rfl⟩ := Prod.mk.inj (Except.ok.inj h)
    exact List.suffix_rfl

theorem readDocument_eq_bind (s : List Char) :
    readDocument s =
      (readLeadingComments s).bind fun p =>
        (readBlockName p.2).bind fun q => (contentOf none q.2).map fun c => ⟨q.1, p.1 ++ c.1⟩ := by
  unfold readDocument contentOf
  cases readLeadingComments s with
  | error f => rfl
  | ok p =>
    simp only [bind, Except.bind]
    cases readBlockName p.2 with
    | error f => rfl
    | ok q =>
      simp only
      cases readContent none q.2 with
      | error f => rfl
      | ok c => rfl

theorem readDocument_error (h : readDocument s = .error f) : f.Holds s := by
  rw [readDocument_eq_bind] at h
  rcases bind_eq_error.1 h with h | ⟨⟨comments, t⟩, ht, h⟩
  · exact readLeadingComments_error h
  refine Fault.Holds.of_suffix ?_ (readLeadingComments_suffix ht)
  rcases bind_eq_error.1 h with h | ⟨⟨name, u⟩, hu, h⟩
  · exact readBlockName_error h
  refine Fault.Holds.of_suffix ?_ (readBlockName_suffix hu)
  rcases contentOf_error (map_eq_error.1 h) with h | ⟨brace, hbrace, -⟩
  · exact h
  · contradiction

theorem parse_eq_error {source : String} {e : ParseError} :
    parse source = .error e ↔ ∃ f, readDocument source.toList = .error f ∧ f.locate source.toList = e := by
  unfold parse
  cases readDocument source.toList with
  | error f => simp
  | ok b => simp

/-- an error is the place of a fault that holds there -/
theorem parse_fault {source : String} {e : ParseError} (h : parse source = .error e) :
    ∃ kind before after, source.toList = before ++ after ∧ kind.Says before after ∧ e = .between kind before after := by
  obtain ⟨⟨kind, after⟩, hf, rfl⟩ := parse_eq_error.1 h
  obtain ⟨before, hs, hkind⟩ := readDocument_error hf
  refine ⟨kind, before, after, hs, hkind, ?_⟩
  rw [hs]
  exact Fault.locate_append kind before after

end

/-- What an error says is true: the source is in two parts, of which the first has as many bytes as the offset tells,
and the statement of the error's kind holds between them. -/
theorem parse_error_holds {source : String} {e : ParseError} (h : parse source = .error e) :
    ∃ before after, source.toList = before ++ after ∧ e.offset = byteSize before ∧ e.kind.Says before after := by
  obtain ⟨kind, before, after, hs, hkind, rfl⟩ := parse_fault h
  exact ⟨before, after, hs, rfl, hkind⟩

/-- a text, and on the next line an at sign before a comment -/
def strayAtSign : String := "'é'\r\n @/* x\r\n*/"

theorem parse_strayAtSign : parse strayAtSign = .error ⟨.expectedElement, 7, 2, 2, " @/* x"⟩ := by
  have hcomments : readLeadingComments strayAtSign.toList = .ok ([], strayAtSign.toList) := by
    rw [readLeadingComments_eq, if_neg (by decide)]
    rfl
  have hliteral : IsLiteral "é" "'é'".toList :=
    ⟨'\'', ['é'], .inl rfl, .cons (.plain (by decide) (by decide) (by decide)) .nil, rfl⟩
  have htext : readItem false strayAtSign.toList = .ok (.node (.text "é"), "\r\n @/* x\r\n*/".toList) :=
    readItem_text .nil hliteral
  have hsign : readItem false "\r\n @/* x\r\n*/".toList = .error ⟨.expectedElement, "@/* x\r\n*/".toList⟩ := rfl
  have hname : readBlockName strayAtSign.toList = .ok (none, strayAtSign.toList) := rfl
  refine parse_eq_error.2 ⟨⟨.expectedElement, "@/* x\r\n*/".toList⟩, ?_, rfl⟩
  rw [readDocument_eq_bind, hcomments]
  simp only [Except.bind, hname]
  rw [contentOf_eq, Option.isSome_none, htext]
  simp only
  rw [contentOf_eq, Option.isSome_none, hsign]
  rfl

theorem strayAtSign_holds :
    parse strayAtSign = .error ⟨.expectedElement, 7, 2, 2, " @/* x"⟩ ∧
      ∃ before after, strayAtSign.toList = before ++ after ∧ 7 = byteSize before ∧
        ParseErrorKind.expectedElement.Says before after :=
  ⟨parse_strayAtSign, parse_error_holds parse_strayAtSign⟩

end BlockTemplates.Source
