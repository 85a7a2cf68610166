/-
The heads of elements as they are written. Spaces may stand after the tag, around the names and before the attribute list,
but not after the at sign and not before the slash of an element without tag.

Main statements: `readHead_written` (a head is read back) and `exists_headText` (every head can be written).
-/
import BlockTemplates.Proofs.Layout.Attributes
import BlockTemplates.Source.Head

namespace BlockTemplates.Source

open Markup

/-! ## What is written -/

/-- names with the commas between them -/
inductive NamesText : List String → List Char → Prop
  | last {name} : NamesText [name] name.toList
  | cons {name names s s' t} : Spaces s → Spaces s' → NamesText names t →
    NamesText (name :: names) (name.toList ++ (s ++ ',' :: (s' ++ t)))

/-- a name list behind its slash -/
inductive NameListText : List (Option String) → List Char → Prop
  | identified {names s t} : Spaces s → NamesText names t → NameListText (names.map some) (s ++ t)
  | anonymous {names s s' t} : Spaces s → Spaces s' → NamesText names t →
    NameListText (none :: names.map some) (s ++ ',' :: (s' ++ t))

/-- the name list of an element, if it has one, with the spaces between the tag and the slash -/
inductive NamePartText (tag : Option String) : Option (List (Option String)) → List Char → Prop
  | absent : NamePartText tag none []
  | written {names s t} : Spaces s → (tag = none → s = []) → NameListText names t →
    NamePartText tag (some names) (s ++ '/' :: t)

/-- the attribute list of an element, if it has one, with the spaces before it -/
inductive AttributePartText : Option Attributes → List Char → Prop
  | absent : AttributePartText none []
  | written {a s t} : Spaces s → AttributesText a ('(' :: t) → AttributePartText (some a) (s ++ '(' :: t)

def markText (isHelper : Bool) : List Char := if isHelper then ['@'] else []

def tagText (tag : Option String) : List Char := (tag.map String.toList).getD []

/-- an element up to its content -/
def HeadText (h : Head) (s : List Char) : Prop :=
  ∃ u v, NamePartText h.tagName h.names u ∧ AttributePartText h.attributes v ∧
    s = markText h.isHelper ++ (tagText h.tagName ++ (u ++ v))

/-- one name or more, perhaps behind one that is absent -/
def IsNameList (names : List (Option String)) : Prop :=
  ∃ present, present ≠ [] ∧ (∀ n ∈ present, IsName .element n) ∧
    (names = present.map some ∨ names = none :: present.map some)

/-- all names of a head are such, and there are some to read it by -/
structure HeadNamed (h : Head) : Prop where
  present : h.tagName ≠ none ∨ h.names ≠ none
  tag : ∀ tag, h.tagName = some tag → IsName .tag tag
  names : ∀ names, h.names = some names → IsNameList names
  attributes : ∀ a, h.attributes = some a → AttributesNamed a

/-! ## Names -/

theorem Spaces.endsWord {s rest : List Char} (hs : Spaces s) (hr : EndsWord rest) : EndsWord (s ++ rest) :=
  (Gap.of_spaces hs).endsWord hr

theorem readNames_eq (s : List Char) :
    readNames s =
      match readName .element s with
      | none => .error ⟨.expectedElementName, s⟩
      | some (name, r) =>
        match skipSpaces r with
        | ',' :: r =>
          match readNames (skipSpaces r) with
          | .error f => .error f
          | .ok (names, r) => .ok (name :: names, r)
        | r => .ok ([name], r) := by
  rw [readNames]
  split
  · rename_i hn
    simp only [hn]
  · rename_i hn
    simp only [hn]
    split
    · rename_i hs
      rw [hs]
      rfl
    · rename_i hne
      split
      · rename_i heq
        exact absurd heq (hne _)
      · rfl

theorem NamesText.start {names : List String} {t : List Char} (h : NamesText names t)
    (hn : ∀ n ∈ names, IsName .element n) : ∃ c cs, t = c :: cs ∧ isNameChar c = true := by
  cases h with
  | @last name => exact IsName.start (hn name List.mem_cons_self)
  | @cons name names s s' t _ _ _ =>
    obtain ⟨c, cs, hs, hc⟩ := IsName.start (hn name List.mem_cons_self)
    exact ⟨c, _, by rw [hs]; rfl, hc⟩

theorem isSpace_of_isNameChar {c : Char} (h : isNameChar c = true) : isSpace c = false :=
  (endsGap_of_isNameChar (s := []) h).1 c rfl

theorem skipSpaces_names {names : List String} {t : List Char} (h : NamesText names t)
    (hn : ∀ n ∈ names, IsName .element n) {s : List Char} (hs : Spaces s) (rest : List Char) :
    skipSpaces (s ++ (t ++ rest)) = t ++ rest := by
  obtain ⟨c, cs, rfl, hc⟩ := h.start hn
  exact skipSpaces_append_cons hs (isSpace_of_isNameChar hc) _

theorem readNames_written {names : List String} {t rest : List Char} (h : NamesText names t)
    (hn : ∀ n ∈ names, IsName .element n) (hr : EndsWord rest) (hc : (skipSpaces rest).head? ≠ some ',') :
    readNames (t ++ rest) = .ok (names, skipSpaces rest) := by
  induction h with
  | @last name =>
    rw [readNames_eq, readName_word (hn name List.mem_cons_self) hr.endsName]
    dsimp only
    split
    · rename_i heq
      rw [heq] at hc
      exact absurd rfl hc
    · rfl
  | @cons name names s s' t hs hs' ht ih =>
    have hn' : ∀ n ∈ names, IsName .element n := fun n hmem => hn n (List.mem_cons_of_mem _ hmem)
    have hcomma : EndsWord (',' :: (s' ++ (t ++ rest))) := endsWord_cons (by decide)
    have hname : readName .element (name.toList ++ (s ++ ',' :: (s' ++ (t ++ rest)))) =
        some (name, s ++ ',' :: (s' ++ (t ++ rest))) :=
      readName_word (hn name List.mem_cons_self) (hs.endsWord hcomma).endsName
    have hskip : skipSpaces (s ++ ',' :: (s' ++ (t ++ rest))) = ',' :: (s' ++ (t ++ rest)) :=
      skipSpaces_append_cons hs (by decide) _
    rw [readNames_eq]
    simp only [List.append_assoc, List.cons_append, hname, hskip, skipSpaces_names ht hn' hs', ih hn']

theorem IsNameList.isName {names : List (Option String)} (h : IsNameList names) {n : String} (hn : some n ∈ names) :
    IsName .element n := by
  obtain ⟨present, -, hall, rfl | rfl⟩ := h
  · exact hall n (by simpa using hn)
  · exact hall n (by simpa using hn)

theorem readNameList_written {names : List (Option String)} {t rest : List Char} (h : NameListText names t)
    (hn : IsNameList names) (hr : EndsWord rest) (hc : (skipSpaces rest).head? ≠ some ',') :
    readNameList (t ++ rest) = .ok (names, skipSpaces rest) := by
  cases h with
  | @identified names s t hs ht =>
    have hnames : ∀ n ∈ names, IsName .element n := fun n hmem => hn.isName (List.mem_map_of_mem hmem)
    have hread := readNames_written ht hnames hr hc
    obtain ⟨c, cs, rfl, hc⟩ := ht.start hnames
    unfold readNameList
    rw [List.append_assoc, List.cons_append, skipSpaces_append_cons hs (isSpace_of_isNameChar hc)]
    split
    · rename_i heq
      obtain ⟨rfl, -⟩ := List.cons.inj heq
      exact absurd hc (by decide)
    · rw [List.cons_append] at hread
      simp only [hread, bind, Except.bind]
      rfl
  | @anonymous names s s' t hs hs' ht =>
    have hnames : ∀ n ∈ names, IsName .element n :=
      fun n hmem => hn.isName (List.mem_cons_of_mem _ (List.mem_map_of_mem hmem))
    have hread := readNames_written ht hnames hr hc
    have hskip : skipSpaces (s ++ ',' :: (s' ++ t) ++ rest) = ',' :: (s' ++ (t ++ rest)) := by
      rw [List.append_assoc, List.cons_append, skipSpaces_append_cons hs (by decide), List.append_assoc]
    unfold readNameList
    simp only [hskip, skipSpaces_names ht hnames hs', hread, bind, Except.bind]
    rfl

/-- a slash before names starts no comment: a space, a comma or a name follows it -/
theorem NameListText.atComment {names : List (Option String)} {t : List Char} (h : NameListText names t)
    (hn : IsNameList names) (rest : List Char) : atComment ('/' :: (t ++ rest)) = false := by
  have hstart : ∃ c cs, t = c :: cs ∧ (isNameChar c || isSpace c || c == ',') = true := by
    cases h with
    | @identified names s t hs ht =>
      cases s with
      | nil =>
        obtain ⟨c, cs, rfl, hc⟩ := ht.start fun n hmem => hn.isName (List.mem_map_of_mem hmem)
        exact ⟨c, cs, rfl, by simp [hc]⟩
      | cons c s => exact ⟨c, _, rfl, by simp [hs c List.mem_cons_self]⟩
    | @anonymous names s s' t hs _ _ =>
      cases s with
      | nil => exact ⟨',', _, rfl, rfl⟩
      | cons c s => exact ⟨c, _, rfl, by simp [hs c List.mem_cons_self]⟩
  obtain ⟨c, cs, rfl, hc⟩ := hstart
  unfold BlockTemplates.Source.atComment
  split
  · rename_i heq
    cases heq
    exact absurd hc (by decide)
  · rename_i heq
    cases heq
    exact absurd hc (by decide)
  · rfl

/-! ## The parts of a head -/

theorem readHelperMark_absent {s : List Char} (h : s.head? ≠ some '@') : readHelperMark s = (false, s) := by
  unfold readHelperMark
  split
  · exact absurd rfl h
  · rfl

theorem readHelperMark_written {isHelper : Bool} {s : List Char} (h : s.head? ≠ some '@') :
    readHelperMark (markText isHelper ++ s) = (isHelper, s) := by
  cases isHelper with
  | true => rfl
  | false => exact readHelperMark_absent h

theorem readTag_written {tag : Option String} {s : List Char} (ht : ∀ t, tag = some t → IsName .tag t) (hs : EndsWord s)
    (hnone : tag = none → EndsSpaces s) : readTag (tagText tag ++ s) = (tag, skipSpaces s) := by
  unfold readTag
  cases tag with
  | some tag =>
    have hname : readName .tag (tagText (some tag) ++ s) = some (tag, s) := readName_word (ht tag rfl) hs.endsName
    simp only [hname]
  | none =>
    have hname : readName .tag (tagText none ++ s) = none := by
      apply readName_eq_none
      intro c hc
      rw [Bool.eq_false_iff]
      intro hfirst
      have hnot := (hs.endsName c hc).1
      rw [isNameChar_of_isFirst hfirst] at hnot
      contradiction
    simp only [hname, skipSpaces_eq_self (hnone rfl)]
    rfl

/-- where no names are looked for, nothing is taken off -/
theorem readNamePart_absent {s : List Char} (h : s.head? = some '/' → atComment s = true) :
    readNamePart s = .ok (none, s) := by
  unfold readNamePart
  split
  · rw [if_pos (h rfl)]
  · rfl

theorem readNamePart_written {tag : Option String} {names : Option (List (Option String))} {u rest : List Char}
    (h : NamePartText tag names u) (hn : ∀ l, names = some l → IsNameList l) (hr : EndsWord rest)
    (hc : (skipSpaces rest).head? ≠ some ',')
    (hslash : names = none → (skipSpaces rest).head? = some '/' → atComment (skipSpaces rest) = true) :
    readNamePart (skipSpaces (u ++ rest)) = .ok (names, skipSpaces rest) := by
  cases h with
  | absent =>
    rw [List.nil_append]
    exact readNamePart_absent (hslash rfl)
  | @written names s t hs _ ht =>
    rw [List.append_assoc, List.cons_append, skipSpaces_append_cons hs (by decide)]
    simp only [readNamePart, ht.atComment (hn names rfl), Bool.false_eq_true, if_false,
      readNameList_written ht (hn names rfl) hr hc, bind, Except.bind]
    rfl

theorem readAttributePart_absent {s : List Char} (h : s.head? ≠ some '(') : readAttributePart s = .ok (none, s) := by
  unfold readAttributePart
  split
  · exact absurd rfl h
  · rfl

theorem readAttributePart_written {a : Option Attributes} {v rest : List Char} (h : AttributePartText a v)
    (hn : ∀ b, a = some b → AttributesNamed b) (hr : (skipSpaces rest).head? ≠ some '(') :
    readAttributePart (skipSpaces (v ++ rest)) = .ok (a, skipSpaces rest) := by
  cases h with
  | absent =>
    rw [List.nil_append]
    exact readAttributePart_absent hr
  | @written a s t hs ht =>
    rw [List.append_assoc, List.cons_append, skipSpaces_append_cons hs (by decide)]
    simp only [readAttributePart, readAttributes_written ht (hn a rfl) rest, bind, Except.bind]
    rfl

/-! ## Heads -/

/-- what may follow a head: nothing that the head could go on with -/
structure EndsHead (h : Head) (rest : List Char) : Prop where
  word : EndsWord rest
  next : ∀ c, (skipSpaces rest).head? = some c → c ≠ '(' ∧ c ≠ ','
  slash : h.names = none → h.attributes = none → (skipSpaces rest).head? = some '/' → atComment (skipSpaces rest) = true

section

variable {h : Head} {u v rest : List Char}

/-- what may follow a head may follow its names, whether attributes stand between or not -/
theorem AttributePartText.ends (hv : AttributePartText h.attributes v) (hr : EndsHead h rest) :
    EndsWord (v ++ rest) ∧ (skipSpaces (v ++ rest)).head? ≠ some ',' ∧
      (h.names = none → (skipSpaces (v ++ rest)).head? = some '/' → atComment (skipSpaces (v ++ rest)) = true) := by
  generalize ha : h.attributes = attributes at hv
  cases hv with
  | absent => exact ⟨hr.word, fun hc => (hr.next ',' hc).2 rfl, fun hnames => hr.slash hnames ha⟩
  | @written a s t hs _ =>
    have hword : EndsWord ('(' :: (t ++ rest)) := endsWord_cons (by decide)
    rw [List.append_assoc, List.cons_append, skipSpaces_append_cons hs (by decide)]
    exact ⟨hs.endsWord hword, by simp, by simp⟩

theorem NamePartText.endsWord {tag : Option String} {names : Option (List (Option String))}
    (hu : NamePartText tag names u) (hr : EndsWord rest) : EndsWord (u ++ rest) := by
  cases hu with
  | absent => exact hr
  | @written names s t hs _ _ =>
    have hword : EndsWord ('/' :: (t ++ rest)) := endsWord_cons (by decide)
    rw [List.append_assoc]
    exact hs.endsWord hword

/-- without a tag, a head begins with the slash before its names -/
theorem NamePartText.start (hu : NamePartText h.tagName h.names u) (hn : HeadNamed h) (htag : h.tagName = none) :
    ∃ t, u = '/' :: t := by
  generalize hnames : h.names = names at hu
  cases hu with
  | absent => exact absurd hnames (hn.present.resolve_left (by simp [htag]))
  | @written names s t _ hs _ =>
    rw [hs htag]
    exact ⟨t, rfl⟩

/-- a head begins with the at sign, its tag or the slash -/
theorem HeadText.start {t : List Char} (ht : HeadText h t) (hn : HeadNamed h) :
    ∃ c cs, t = c :: cs ∧ (c = '@' ∧ h.isHelper = true ∨ isNameChar c = true ∧ h.tagName ≠ none ∨
      c = '/' ∧ h.isHelper = false ∧ h.tagName = none) := by
  obtain ⟨u, v, hu, hv, rfl⟩ := ht
  cases hh : h.isHelper with
  | true => exact ⟨'@', _, rfl, .inl ⟨rfl, rfl⟩⟩
  | false =>
    cases htag : h.tagName with
    | some tag =>
      obtain ⟨c, cs, hs, hc⟩ := IsName.start (hn.tag tag htag)
      exact ⟨c, cs ++ (u ++ v), by simp [markText, tagText, hs], .inr (.inl ⟨hc, by simp⟩)⟩
    | none =>
      obtain ⟨t, rfl⟩ := hu.start hn htag
      exact ⟨'/', t ++ v, rfl, .inr (.inr ⟨rfl, rfl, rfl⟩)⟩

/-- a head is read by reading its parts one after the other -/
theorem readHead_of_parts {s t u v r : List Char} (hmark : readHelperMark s = (h.isHelper, t))
    (htag : readTag t = (h.tagName, u)) (hnames : readNamePart u = .ok (h.names, v))
    (hpresent : h.tagName ≠ none ∨ h.names ≠ none) (hattributes : readAttributePart v = .ok (h.attributes, r)) :
    readHead s = .ok (h, r) := by
  have hsome : (h.tagName.isNone && h.names.isNone) = false := by
    rwa [Bool.and_eq_false_iff, Option.isNone_eq_false_iff, Option.isNone_eq_false_iff, Option.isSome_iff_ne_none,
      Option.isSome_iff_ne_none]
  unfold readHead
  simp only [hmark, htag, hnames, hsome, hattributes, bind, Except.bind, Bool.false_eq_true, if_false]
  rfl

/-- a head is read back, and the spaces after it are skipped -/
theorem readHead_written {t : List Char} (ht : HeadText h t) (hn : HeadNamed h) (hr : EndsHead h rest) :
    readHead (t ++ rest) = .ok (h, skipSpaces rest) := by
  obtain ⟨u, v, hu, hv, rfl⟩ := ht
  obtain ⟨hword, hcomma, hslash⟩ := hv.ends hr
  have hmark : readHelperMark (markText h.isHelper ++ (tagText h.tagName ++ (u ++ (v ++ rest)))) =
      (h.isHelper, tagText h.tagName ++ (u ++ (v ++ rest))) := by
    refine readHelperMark_written ?_
    cases htag : h.tagName with
    | some tag =>
      obtain ⟨c, cs, hs, hc⟩ := IsName.start (hn.tag tag htag)
      simp only [tagText, Option.map_some, Option.getD_some, hs, List.cons_append, List.head?_cons, ne_eq,
        Option.some.injEq]
      rintro rfl
      exact absurd hc (by decide)
    | none =>
      obtain ⟨t, rfl⟩ := hu.start hn htag
      simp [tagText]
  have htag : readTag (tagText h.tagName ++ (u ++ (v ++ rest))) = (h.tagName, skipSpaces (u ++ (v ++ rest))) := by
    apply readTag_written hn.tag (hu.endsWord hword)
    intro htag
    obtain ⟨t, rfl⟩ := hu.start hn htag
    exact endsSpaces_cons (by decide)
  have hnames := readNamePart_written hu hn.names hword hcomma hslash
  have hattributes := readAttributePart_written hv hn.attributes fun hc => (hr.next '(' hc).1 rfl
  simp only [List.append_assoc]
  exact readHead_of_parts hmark htag hnames hn.present hattributes

end

/-! ## Every head can be written -/

theorem exists_namesText {names : List String} (h : names ≠ []) : ∃ t, NamesText names t := by
  induction names with
  | nil => exact absurd rfl h
  | cons name names ih =>
    cases names with
    | nil => exact ⟨_, .last⟩
    | cons name' names =>
      obtain ⟨t, ht⟩ := ih (by simp)
      exact ⟨_, .cons .nil .nil ht⟩

theorem exists_nameListText {names : List (Option String)} (h : IsNameList names) : ∃ t, NameListText names t := by
  obtain ⟨present, hne, -, rfl | rfl⟩ := h
  · obtain ⟨t, ht⟩ := exists_namesText hne
    exact ⟨_, .identified .nil ht⟩
  · obtain ⟨t, ht⟩ := exists_namesText hne
    exact ⟨_, .anonymous .nil .nil ht⟩

theorem exists_headText {h : Head} (hn : HeadNamed h) : ∃ t, HeadText h t := by
  have hu : ∃ u, NamePartText h.tagName h.names u := by
    cases hnames : h.names with
    | none => exact ⟨_, .absent⟩
    | some names =>
      obtain ⟨t, ht⟩ := exists_nameListText (hn.names names hnames)
      exact ⟨_, .written .nil (fun _ => rfl) ht⟩
  have hv : ∃ v, AttributePartText h.attributes v := by
    cases h.attributes with
    | none => exact ⟨_, .absent⟩
    | some a =>
      obtain ⟨t, ht⟩ := exists_attributesText a
      exact ⟨_, .written .nil ht⟩
  obtain ⟨u, hu⟩ := hu
  obtain ⟨v, hv⟩ := hv
  exact ⟨_, u, v, hu, hv, rfl⟩

end BlockTemplates.Source
