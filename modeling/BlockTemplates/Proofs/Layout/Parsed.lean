/-
What is read is well formed. A reader that succeeds has taken a word of its kind off the text. A head with nothing but a
tag ends where no names follow, so that the element after it is none that could have been its names.

Main statements: `readName_isName`, `readComment_fits`, `readAttributes_named`, `readHead_named` (what the parts of a
document are), `readHead_end` and `readHead_start` (where heads end and begin), `contentOf_wellFormed` and
`parse_wellFormed`.
-/
import BlockTemplates.Proofs.Layout.Documents

namespace BlockTemplates.Source

open Markup

/-- what a reader composed of two comes to -/
theorem bind_eq_ok {α β : Type} {x : Except Fault α} {f : α → Except Fault β} {b : β} :
    x >>= f = .ok b ↔ ∃ a, x = .ok a ∧ f a = .ok b := by
  cases x with
  | error e => simp [bind, Except.bind]
  | ok a => simp [bind, Except.bind]

theorem map_eq_ok {α β : Type} {x : Except Fault α} {f : α → β} {b : β} :
    x.map f = .ok b ↔ ∃ a, x = .ok a ∧ f a = b := by
  cases x with
  | error e => simp [Except.map]
  | ok a => simp [Except.map]

theorem pure_eq_ok {α : Type} {a b : α} : (pure a : Except Fault α) = .ok b ↔ a = b := by
  simp [pure, Except.pure]

/-! ## Names -/

section

variable {k : NameKind} {s r : List Char}

theorem ident_isIdent (h : ident k s ≠ []) : IsIdent k (ident k s) := by
  cases s with
  | nil => exact absurd rfl h
  | cons c s =>
    simp only [ident] at h ⊢
    split at h
    · rename_i hc
      rw [if_pos hc]
      exact ⟨c, _, rfl, hc, List.all_eq_true.1 List.all_takeWhile⟩
    · exact absurd rfl h

theorem afterNamespace_eq (k : NameKind) (s : List Char) :
    afterNamespace k s = [] ∨ ∃ n, IsIdent k n ∧ afterNamespace k s = ':' :: n := by
  unfold afterNamespace
  split
  · split
    · exact .inl rfl
    · rename_i hn
      exact .inr ⟨_, ident_isIdent (by simpa using hn), rfl⟩
  · exact .inl rfl

theorem longest_isNameText (h : k.longest s ≠ []) : IsNameText k (k.longest s) := by
  unfold NameKind.longest at h ⊢
  dsimp only at h ⊢
  split
  · rename_i hns
    simp only [Bool.and_eq_true, Bool.not_eq_true', List.isEmpty_eq_false_iff] at hns
    rcases afterNamespace_eq k (s.drop (ident k s).length) with hafter | ⟨n, hn, hafter⟩
    · rw [hafter, List.append_nil]
      exact .inl (ident_isIdent hns.2)
    · rw [hafter]
      exact .inr ⟨hns.1, _, n, ident_isIdent hns.2, hn, rfl⟩
  · rename_i hns
    rw [if_neg hns] at h
    exact .inl (ident_isIdent h)

theorem readName_isName {name : String} (h : readName k s = some (name, r)) : IsName k name := by
  obtain ⟨hlongest, hne, -⟩ := readName_eq_some h
  unfold IsName
  rw [hlongest] at hne ⊢
  exact longest_isNameText hne

theorem readSuperCall_isName {call : SuperCall} (h : readSuperCall s = some (call, r)) :
    ∀ name, call.elementName = some name → IsName .element name := by
  unfold readSuperCall at h
  split at h
  · simp only [Option.some.injEq, Prod.mk.injEq] at h
    simp [← h.1]
  · split at h
    · rename_i hname
      simp only [Option.some.injEq, Prod.mk.injEq] at h
      intro name hcall
      rw [← h.1, Option.some.injEq] at hcall
      exact hcall ▸ readName_isName hname
    · contradiction
  · contradiction

end

/-! ## Comments -/

/-- the value has no line end, or no end of a comment, as the kind of the comment demands -/
def Comment.Fits (c : Comment) : Prop := if c.multiline then Unclosed c.value.toList else OneLine c.value.toList

theorem unclosed_nil : Unclosed [] := by simp [Unclosed]

theorem unclosed_cons {c : Char} {v : List Char} (hv : Unclosed v) (h : ∀ w, c :: v ≠ '*' :: '/' :: w) :
    Unclosed (c :: v) := by
  intro hinfix
  rcases List.infix_cons_iff.1 hinfix with ⟨w, hw⟩ | hinfix
  · exact h w hw.symm
  · exact hv hinfix

/-- the end that is found is the first one -/
theorem untilCommentEnd_eq_some {read s v r : List Char} (h : untilCommentEnd read s = some (v, r)) :
    ∃ w, v = read.reverse ++ w ∧ s = w ++ '*' :: '/' :: r ∧ Unclosed w := by
  fun_induction untilCommentEnd read s with
  | case1 read s =>
    simp only [Option.some.injEq, Prod.mk.injEq] at h
    exact ⟨[], by simp [h.1], by simp [h.2], unclosed_nil⟩
  | case2 read c s hne ih =>
    obtain ⟨w, hv, hs, hw⟩ := ih h
    refine ⟨c :: w, by simp [hv], by simp [hs], unclosed_cons hw ?_⟩
    intro u hu
    obtain ⟨rfl, rfl⟩ := List.cons.inj hu
    exact hne _ rfl hs
  | case3 => contradiction

theorem readComment_fits {s r : List Char} {c : Comment} (h : readComment s = .ok (c, r)) : c.Fits := by
  unfold readComment at h
  split at h
  · simp only [Except.ok.injEq, Prod.mk.injEq] at h
    rw [← h.1]
    simp only [Comment.Fits, Bool.false_eq_true, if_false, String.toList_ofList]
    intro d hd
    simpa using List.all_eq_true.1 List.all_takeWhile d hd
  · split at h
    · rename_i hu
      simp only [Except.ok.injEq, Prod.mk.injEq] at h
      obtain ⟨w, hv, -, hw⟩ := untilCommentEnd_eq_some hu
      rw [← h.1]
      simp only [Comment.Fits, if_true, String.toList_ofList]
      rwa [hv]
    · contradiction
  · contradiction
  · contradiction

/-! ## Attribute lists -/

section

variable {s r : List Char}

theorem readAttribute_isName {a : Attribute} (h : readAttribute s = .ok (a, r)) : IsName .attr a.name := by
  unfold readAttribute at h
  split at h
  · contradiction
  · rename_i hname
    obtain ⟨u, -, h⟩ := bind_eq_ok.1 h
    split at h
    · obtain ⟨p, -, h⟩ := bind_eq_ok.1 h
      obtain ⟨q, -, h⟩ := bind_eq_ok.1 h
      obtain rfl := (Prod.mk.inj (pure_eq_ok.1 h)).1
      exact readName_isName hname
    · obtain rfl := (Prod.mk.inj (pure_eq_ok.1 h)).1
      exact readName_isName hname

theorem readEntry_named {allowed : Bool} {e : Entry} (h : readEntry allowed s = .ok (e, r)) : EntryNamed e := by
  unfold readEntry at h
  split at h
  · rename_i call t hcall
    obtain ⟨u, -, h⟩ := bind_eq_ok.1 h
    obtain rfl := (Prod.mk.inj (pure_eq_ok.1 h)).1
    cases allowed with
    | true => exact readSuperCall_isName hcall
    | false => contradiction
  · obtain ⟨p, hp, h⟩ := bind_eq_ok.1 h
    obtain rfl := (Prod.mk.inj (pure_eq_ok.1 h)).1
    exact readAttribute_isName hp

theorem readEntries_named {allowed : Bool} {es : List Entry} (h : readEntries allowed s = .ok (es, r)) :
    ∀ e ∈ es, EntryNamed e := by
  fun_induction readEntries allowed s generalizing es r with
  | case1 => contradiction
  | case2 allowed s e t he =>
    obtain ⟨rfl, -⟩ := Prod.mk.inj (Except.ok.inj h)
    simpa using readEntry_named he
  | case3 => contradiction
  | case4 => contradiction
  | case5 allowed s e t he u hg es' r' hes ih =>
    obtain ⟨rfl, -⟩ := Prod.mk.inj (Except.ok.inj h)
    exact List.forall_mem_cons.2 ⟨readEntry_named he, ih hes⟩
  | case6 => contradiction

theorem attributesOfEntries_named {es : List Entry} (h : ∀ e ∈ es, EntryNamed e) :
    AttributesNamed (attributesOfEntries es) where
  target call hcall name hname := by
    obtain ⟨e, he, hfound⟩ := List.exists_of_findSome?_eq_some hcall
    cases e with
    | superCall c =>
      obtain rfl := Option.some.inj hfound
      exact h _ he name hname
    | setting a => contradiction
  names attr hattr := by
    obtain ⟨e, he, hfound⟩ := List.mem_filterMap.1 hattr
    cases e with
    | superCall c => contradiction
    | setting a =>
      obtain rfl := Option.some.inj hfound
      exact h _ he

theorem readAttributes_named {a : Attributes} (h : readAttributes s = .ok (a, r)) : AttributesNamed a := by
  unfold readAttributes at h
  obtain ⟨u, -, h⟩ := bind_eq_ok.1 h
  split at h
  · obtain rfl := (Prod.mk.inj (pure_eq_ok.1 h)).1
    exact ⟨by simp, by simp⟩
  · obtain ⟨p, hp, h⟩ := bind_eq_ok.1 h
    obtain rfl := (Prod.mk.inj (pure_eq_ok.1 h)).1
    exact attributesOfEntries_named (readEntries_named hp)

/-! ## Heads -/

theorem readNames_isName {names : List String} (h : readNames s = .ok (names, r)) :
    names ≠ [] ∧ ∀ n ∈ names, IsName .element n := by
  fun_induction readNames s generalizing names r with
  | case1 => contradiction
  | case2 => contradiction
  | case3 s name t hn u hs names' r' hread ih =>
    obtain ⟨rfl, -⟩ := Prod.mk.inj (Except.ok.inj h)
    exact ⟨by simp, List.forall_mem_cons.2 ⟨readName_isName hn, (ih hread).2⟩⟩
  | case4 s name t hn =>
    obtain ⟨rfl, -⟩ := Prod.mk.inj (Except.ok.inj h)
    exact ⟨by simp, by simpa using readName_isName hn⟩

theorem readNameList_isNameList {names : List (Option String)} (h : readNameList s = .ok (names, r)) :
    IsNameList names := by
  unfold readNameList at h
  split at h
  · obtain ⟨p, hp, h⟩ := bind_eq_ok.1 h
    obtain ⟨hne, hnames⟩ := readNames_isName hp
    exact ⟨p.1, hne, hnames, .inr (Prod.mk.inj (pure_eq_ok.1 h)).1.symm⟩
  · obtain ⟨p, hp, h⟩ := bind_eq_ok.1 h
    obtain ⟨hne, hnames⟩ := readNames_isName hp
    exact ⟨p.1, hne, hnames, .inl (Prod.mk.inj (pure_eq_ok.1 h)).1.symm⟩

theorem readTag_isName {tag : String} (h : (readTag s).1 = some tag) : IsName .tag tag := by
  unfold readTag at h
  split at h
  · rename_i hname
    obtain rfl := Option.some.inj h
    exact readName_isName hname
  · contradiction

/-- names that are read stand behind a slash that starts no comment -/
theorem readNamePart_eq_some {names : List (Option String)} (h : readNamePart s = .ok (some names, r)) :
    ∃ t, s = '/' :: t ∧ atComment s = false ∧ readNameList t = .ok (names, r) := by
  unfold readNamePart at h
  split at h
  · rename_i t
    split at h
    · simp at h
    · rename_i hat
      obtain ⟨p, hp, h⟩ := bind_eq_ok.1 h
      obtain ⟨hnames, rfl⟩ := Prod.mk.inj (pure_eq_ok.1 h)
      obtain rfl := Option.some.inj hnames
      exact ⟨t, rfl, by simpa using hat, hp⟩
  · simp at h

theorem readNamePart_isNameList {names : List (Option String)} (h : readNamePart s = .ok (some names, r)) :
    IsNameList names := by
  obtain ⟨t, -, -, hnames⟩ := readNamePart_eq_some h
  exact readNameList_isNameList hnames

theorem readAttributePart_named {a : Attributes} (h : readAttributePart s = .ok (some a, r)) : AttributesNamed a := by
  unfold readAttributePart at h
  split at h
  · obtain ⟨p, hp, h⟩ := bind_eq_ok.1 h
    obtain rfl := Option.some.inj (Prod.mk.inj (pure_eq_ok.1 h)).1
    exact readAttributes_named hp
  · simp at h

/-- the parts of a head and the readers that they come from -/
theorem readHead_eq_ok {h : Head} (hr : readHead s = .ok (h, r)) :
    ∃ v, h.isHelper = (readHelperMark s).1 ∧ h.tagName = (readTag (readHelperMark s).2).1 ∧
      readNamePart (readTag (readHelperMark s).2).2 = .ok (h.names, v) ∧ (h.tagName ≠ none ∨ h.names ≠ none) ∧
      readAttributePart v = .ok (h.attributes, r) := by
  unfold readHead at hr
  generalize readHelperMark s = m at hr ⊢
  obtain ⟨helper, t⟩ := m
  dsimp only at hr ⊢
  generalize readTag t = p at hr ⊢
  obtain ⟨tag, u⟩ := p
  obtain ⟨⟨names, v⟩, hnames, hr⟩ := bind_eq_ok.1 hr
  dsimp only at hr
  split at hr
  · contradiction
  · rename_i hpresent
    obtain ⟨⟨attributes, u⟩, hattributes, hr⟩ := bind_eq_ok.1 hr
    obtain ⟨rfl, rfl⟩ := Prod.mk.inj (pure_eq_ok.1 hr)
    refine ⟨v, rfl, rfl, hnames, ?_, hattributes⟩
    rwa [Bool.not_eq_true, Bool.and_eq_false_iff, Option.isNone_eq_false_iff, Option.isNone_eq_false_iff,
      Option.isSome_iff_ne_none, Option.isSome_iff_ne_none] at hpresent

theorem readHead_named {h : Head} (hr : readHead s = .ok (h, r)) : HeadNamed h := by
  obtain ⟨v, -, htag, hnames, hpresent, hattributes⟩ := readHead_eq_ok hr
  refine ⟨hpresent, ?_, ?_, ?_⟩
  · intro tag ht
    exact readTag_isName (htag ▸ ht)
  · intro names hn
    exact readNamePart_isNameList (hn ▸ hnames)
  · intro a ha
    exact readAttributePart_named (ha ▸ hattributes)

/-- where names are looked for and not found, there is no slash, or one that starts a comment -/
theorem atComment_of_readNamePart (h : readNamePart s = .ok (none, r)) (hs : s.head? = some '/') :
    atComment s = true := by
  unfold readNamePart at h
  split at h
  · split at h
    · assumption
    · obtain ⟨p, -, h⟩ := bind_eq_ok.1 h
      cases pure_eq_ok.1 h
  · rename_i hne
    obtain ⟨t, rfl⟩ := List.head?_eq_some_iff.1 hs
    exact absurd rfl (hne t)

theorem readAttributePart_none (h : readAttributePart s = .ok (none, r)) : r = s := by
  unfold readAttributePart at h
  split at h
  · obtain ⟨p, -, h⟩ := bind_eq_ok.1 h
    cases pure_eq_ok.1 h
  · exact (Prod.mk.inj (Except.ok.inj h)).2.symm

/-- a head that is a tag and nothing else ends before something that is no name list -/
theorem readHead_end {h : Head} (hr : readHead s = .ok (h, r)) (hnames : h.names = none)
    (hattributes : h.attributes = none) : EndsSpaces r ∧ (r.head? = some '/' → atComment r = true) := by
  obtain ⟨v, -, htag, hn, hpresent, ha⟩ := readHead_eq_ok hr
  rw [hnames] at hn
  rw [hattributes] at ha
  have hspaces : EndsSpaces (readTag (readHelperMark s).2).2 := by
    have htag' : (readTag (readHelperMark s).2).1 ≠ none := htag ▸ hpresent.resolve_right (by simp [hnames])
    unfold readTag at htag' ⊢
    split
    · exact endsSpaces_skipSpaces _
    · rename_i hnone
      simp [hnone] at htag'
  rw [readAttributePart_none ha, readNamePart_none hn]
  exact ⟨hspaces, atComment_of_readNamePart hn⟩

/-- a head without at sign and tag begins with the slash of its names -/
theorem readHead_start {h : Head} (hr : readHead s = .ok (h, r)) (hhelper : h.isHelper = false)
    (htag : h.tagName = none) : s.head? = some '/' ∧ atComment s = false := by
  obtain ⟨v, hmark, ht, hn, hpresent, -⟩ := readHead_eq_ok hr
  have hs : (readHelperMark s).2 = s := by
    unfold readHelperMark at hmark ⊢
    split
    · simp [hhelper] at hmark
    · rfl
  have hs' : (readTag s).2 = s := by
    rw [hs, htag] at ht
    unfold readTag at ht ⊢
    split
    · rename_i hname
      simp [hname] at ht
    · rfl
  rw [hs, hs'] at hn
  obtain ⟨names, hnames⟩ := Option.ne_none_iff_exists'.1 (hpresent.resolve_left (by simp [htag]))
  rw [hnames] at hn
  obtain ⟨t, rfl, hat, -⟩ := readNamePart_eq_some hn
  exact ⟨rfl, hat⟩

end

/-! ## Content -/

/-- what an item can be, and the reader that it comes from -/
theorem readItem_eq_ok {inBraces : Bool} {s r : List Char} {i : Item} (h : readItem inBraces s = .ok (i, r)) :
    i = .finish ∧ skipSpaces s = [] ∨ i = .close ∧ inBraces = true ∨ (∃ value, i = .node (.text value)) ∨
      (∃ c, readComment (skipSpaces s) = .ok (c, r) ∧ i = .node (.comment c.value c.multiline)) ∨
      (∃ call, inBraces = true ∧ readSuperCall (skipSpaces s) = some (call, r) ∧ i = .node (.superCall call)) ∨
      ∃ e, readHead (skipSpaces s) = .ok (e, r) ∧ i = .head e := by
  unfold readItem at h
  split at h
  · rename_i hs
    exact .inl ⟨(Prod.mk.inj (Except.ok.inj h)).1.symm, hs⟩
  · rename_i c t hs
    rw [hs]
    split at h
    · obtain ⟨p, -, h⟩ := bind_eq_ok.1 h
      exact .inr (.inr (.inl ⟨p.1, (Prod.mk.inj (pure_eq_ok.1 h)).1.symm⟩))
    · split at h
      · obtain ⟨p, hp, h⟩ := bind_eq_ok.1 h
        obtain ⟨rfl, rfl⟩ := Prod.mk.inj (pure_eq_ok.1 h)
        exact .inr (.inr (.inr (.inl ⟨p.1, hp, rfl⟩)))
      · split at h
        · rename_i hclose
          exact .inr (.inl ⟨(Prod.mk.inj (Except.ok.inj h)).1.symm, hclose.2⟩)
        · split at h
          · rename_i call u hcall
            obtain ⟨rfl, rfl⟩ := Prod.mk.inj (Except.ok.inj h)
            cases inBraces with
            | true => exact .inr (.inr (.inr (.inr (.inl ⟨call, rfl, hcall, rfl⟩))))
            | false => contradiction
          · obtain ⟨p, hp, h⟩ := bind_eq_ok.1 h
            obtain ⟨rfl, rfl⟩ := Prod.mk.inj (pure_eq_ok.1 h)
            exact .inr (.inr (.inr (.inr (.inr ⟨p.1, hp, rfl⟩))))

section

variable {opening : Option (List Char)} {s r : List Char} {ns : List Node}

theorem contentOf_suffix (h : contentOf opening s = .ok (ns, r)) : r <:+ s := by
  unfold contentOf at h
  cases hread : readContent opening s with
  | error f =>
    rw [hread] at h
    contradiction
  | ok p =>
    rw [hread] at h
    obtain ⟨-, rfl⟩ := Prod.mk.inj (Except.ok.inj h)
    exact p.2

/-- what the content is when reading it succeeds: nothing more, or a first node and the content after it -/
theorem contentOf_eq_ok (h : contentOf opening s = .ok (ns, r)) :
    ns = [] ∨
      (∃ n t ns', readItem opening.isSome s = .ok (.node n, t) ∧ contentOf opening t = .ok (ns', r) ∧
        ns = n :: ns') ∨
      (∃ e t content u ns', readItem opening.isSome s = .ok (.head e, '\x7b' :: t) ∧
        contentOf (some ('\x7b' :: t)) t = .ok (content, u) ∧ contentOf opening u = .ok (ns', r) ∧
        ns = .element (e.element (some content)) :: ns') ∨
      ∃ e t ns', readItem opening.isSome s = .ok (.head e, t) ∧ contentOf opening t = .ok (ns', r) ∧
        ns = .element (e.element none) :: ns' := by
  rw [contentOf_eq] at h
  split at h
  · contradiction
  · split at h
    · contradiction
    · exact .inl (Prod.mk.inj (Except.ok.inj h)).1.symm
  · exact .inl (Prod.mk.inj (Except.ok.inj h)).1.symm
  · rename_i n t hitem
    obtain ⟨p, hp, h⟩ := map_eq_ok.1 h
    obtain ⟨rfl, rfl⟩ := Prod.mk.inj h
    exact .inr (.inl ⟨n, t, p.1, hitem, hp, rfl⟩)
  · rename_i e t hitem
    obtain ⟨p, hp, h⟩ := bind_eq_ok.1 h
    obtain ⟨q, hq, h⟩ := map_eq_ok.1 h
    obtain ⟨rfl, rfl⟩ := Prod.mk.inj h
    exact .inr (.inr (.inl ⟨e, t, p.1, p.2, q.1, hitem, hp, hq, rfl⟩))
  · rename_i e t _ hitem
    obtain ⟨p, hp, h⟩ := map_eq_ok.1 h
    obtain ⟨rfl, rfl⟩ := Prod.mk.inj h
    exact .inr (.inr (.inr ⟨e, t, p.1, hitem, hp, rfl⟩))

theorem wellFormed_comment {inBraces : Bool} {c : Comment} (hc : c.Fits) (hw : WellFormed inBraces ns) :
    WellFormed inBraces (.comment c.value c.multiline :: ns) := by
  obtain ⟨value, multiline⟩ := c
  cases multiline with
  | true => exact .block hc hw
  | false => exact .line hc hw

/-- a node that is read can stand before any content -/
theorem wellFormed_node {inBraces : Bool} {n : Node} (h : readItem inBraces s = .ok (.node n, r))
    (hw : WellFormed inBraces ns) : WellFormed inBraces (n :: ns) := by
  rcases readItem_eq_ok h with ⟨h, -⟩ | ⟨h, -⟩ | ⟨value, h⟩ | ⟨c, hc, h⟩ | ⟨call, rfl, hcall, h⟩ | ⟨e, he, h⟩
  all_goals cases h
  · exact .text hw
  · exact wellFormed_comment (readComment_fits hc) hw
  · exact .superCall (readSuperCall_isName hcall) hw

theorem readHead_of_item {inBraces : Bool} {e : Head} (h : readItem inBraces s = .ok (.head e, r)) :
    readHead (skipSpaces s) = .ok (e, r) := by
  rcases readItem_eq_ok h with ⟨h, -⟩ | ⟨h, -⟩ | ⟨value, h⟩ | ⟨c, hc, h⟩ | ⟨call, rfl, hcall, h⟩ | ⟨e, he, h⟩
  all_goals cases h
  exact he

/-- the element that content begins with was read where the content begins -/
theorem readHead_of_contentOf {f : Element} (h : contentOf opening s = .ok (.element f :: ns, r)) :
    ∃ t, readHead (skipSpaces s) = .ok (headOf f, t) := by
  rcases contentOf_eq_ok h with h | ⟨n, t, ns', hitem, -, h⟩ | ⟨e, t, content, u, ns', hitem, -, -, h⟩ |
    ⟨e, t, ns', hitem, -, h⟩
  · contradiction
  · obtain ⟨rfl, rfl⟩ := List.cons.inj h
    rcases readItem_eq_ok hitem with ⟨h, -⟩ | ⟨h, -⟩ | ⟨value, h⟩ | ⟨c, hc, h⟩ | ⟨call, -, hcall, h⟩ | ⟨e, he, h⟩
    all_goals cases h
  · cases h
    exact ⟨_, readHead_of_item hitem⟩
  · cases h
    exact ⟨_, readHead_of_item hitem⟩

/-- a head ends where the element after it is none that it could have read on into -/
theorem not_joins_of_readHead {e : Head} {t : List Char} {f : Element} (he : readHead s = .ok (e, t))
    (hns : contentOf opening t = .ok (.element f :: ns, r)) : ¬ Joins (e.element none) f := by
  rintro ⟨⟨hnames, hattributes, -⟩, hhelper, htag⟩
  obtain ⟨hspaces, hslash⟩ := readHead_end he hnames hattributes
  obtain ⟨u, hf⟩ := readHead_of_contentOf hns
  rw [skipSpaces_eq_self hspaces] at hf
  obtain ⟨hhead, hat⟩ := readHead_start hf hhelper htag
  rw [hslash hhead] at hat
  contradiction

/-- content that is read is well formed -/
theorem contentOf_wellFormed (h : contentOf opening s = .ok (ns, r)) : WellFormed opening.isSome ns := by
  generalize hlength : s.length = n
  induction n using Nat.strongRecOn generalizing opening s ns r with
  | ind n ih =>
    subst hlength
    rcases contentOf_eq_ok h with rfl | ⟨n, t, ns', hitem, hns, rfl⟩ |
      ⟨e, t, content, u, ns', hitem, hcontent, hns, rfl⟩ | ⟨e, t, ns', hitem, hns, rfl⟩
    · exact .nil
    · exact wellFormed_node hitem (ih _ (readItem_isRest hitem (by simp)).2 hns rfl)
    · have ht : IsRest t s := .suffix_trans (List.suffix_cons _ _) (readItem_isRest hitem (by simp))
      have hu : IsRest u s := .suffix_trans (contentOf_suffix hcontent) ht
      have hjoins (f : Element) : ¬ Joins (e.element (some content)) f := by simp [Joins, Head.element]
      exact .element (readHead_named (readHead_of_item hitem)) (ih _ ht.2 hcontent rfl) (fun f _ _ => hjoins f)
        (ih _ hu.2 hns rfl)
    · have hjoins (f : Element) (ns'' : List Node) (hf : ns' = .element f :: ns'') : ¬ Joins (e.element none) f :=
        not_joins_of_readHead (readHead_of_item hitem) (hf ▸ hns)
      exact .element (readHead_named (readHead_of_item hitem)) .nil hjoins
        (ih _ (readItem_isRest hitem (by simp)).2 hns rfl)

end

/-! ## Documents -/

theorem readLeadingComments_wellFormed {s r : List Char} {comments content : List Node}
    (h : readLeadingComments s = .ok (comments, r)) (hw : WellFormed false content) :
    WellFormed false (comments ++ content) := by
  fun_induction readLeadingComments s generalizing comments r with
  | case1 => contradiction
  | case2 => contradiction
  | case3 s hat c t hread ns t' hcomments ih =>
    obtain ⟨rfl, -⟩ := Prod.mk.inj (Except.ok.inj h)
    exact wellFormed_comment (readComment_fits hread) (ih hcomments)
  | case4 s hat =>
    obtain ⟨rfl, -⟩ := Prod.mk.inj (Except.ok.inj h)
    exact hw

theorem readBlockName_isName {s r : List Char} {name : String} (h : readBlockName s = .ok (some name, r)) :
    IsName .block name := by
  unfold readBlockName at h
  split at h
  · split at h
    · rename_i hname
      obtain rfl := Option.some.inj (Prod.mk.inj (Except.ok.inj h)).1
      exact readName_isName hname
    · contradiction
  · cases h

/-- the parts of a document and the readers that they come from -/
theorem readDocument_eq_ok {s : List Char} {b : Block} (h : readDocument s = .ok b) :
    ∃ comments r r' content after, readLeadingComments s = .ok (comments, r) ∧ readBlockName r = .ok (b.name, r') ∧
      contentOf none r' = .ok (content, after) ∧ b.content = comments ++ content := by
  unfold readDocument at h
  obtain ⟨⟨comments, r⟩, hcomments, h⟩ := bind_eq_ok.1 h
  obtain ⟨⟨name, t⟩, hname, h⟩ := bind_eq_ok.1 h
  obtain ⟨⟨⟨content, u⟩, hu⟩, hread, h⟩ := bind_eq_ok.1 h
  obtain rfl := pure_eq_ok.1 h
  have hcontent : contentOf none t = .ok (content, u) := by
    unfold contentOf
    rw [hread]
    rfl
  exact ⟨comments, r, t, content, u, hcomments, hname, hcontent, rfl⟩

theorem readDocument_wellFormed {s : List Char} {b : Block} (h : readDocument s = .ok b) : BlockWellFormed b := by
  obtain ⟨comments, r, t, content, u, hcomments, hname, hcontent, hb⟩ := readDocument_eq_ok h
  constructor
  · intro name hsome
    exact readBlockName_isName (hsome ▸ hname)
  · rw [hb]
    exact readLeadingComments_wellFormed hcomments (contentOf_wellFormed hcontent)

theorem readDocument_written {b : Block} {t : List Char} (hb : BlockWellFormed b) (h : BlockText b t) :
    readDocument t = .ok b := by
  cases h with
  | nameless ht => exact readDocument_nameless ht hb.content
  | named hc ht hp hu => exact readDocument_named (hb.name _ rfl) hc ht hp hu hb.content

theorem parse_eq_ok {source : String} {b : Block} : parse source = .ok b ↔ readDocument source.toList = .ok b := by
  unfold parse
  cases readDocument source.toList with
  | error f => simp
  | ok c => simp

/-- **What is parsed is well formed.** All names of a parsed block are names of their kind, its elements have a tag or
names, its comments end where they were ended, super calls stand in braces only, and no element runs into the one after
it; so the block can be written, and however it is written, it is read back. -/
theorem parse_wellFormed {source : String} {b : Block} (h : parse source = .ok b) :
    BlockWellFormed b ∧ (∃ source' : String, BlockText b source'.toList) ∧
      ∀ source' : String, BlockText b source'.toList → parse source' = .ok b := by
  have hb : BlockWellFormed b := readDocument_wellFormed (parse_eq_ok.1 h)
  refine ⟨hb, ?_, fun source' htext => parse_eq_ok.2 (readDocument_written hb htext)⟩
  obtain ⟨t, ht⟩ := exists_blockText hb
  exact ⟨String.ofList t, by rwa [String.toList_ofList]⟩

/-- a comment parts the tag from the names of the element after it -/
def strongLead : Block :=
  ⟨some "b", [.element ⟨false, some "i", none, none, none⟩, .comment "" true,
    .element ⟨false, none, some [some "x"], none, some [.superCall ⟨none⟩]⟩]⟩

theorem readDocument_strongLead : readDocument "#b i /**//x \x7bsuper!\x7d".toList = .ok strongLead := by
  have hcomments : readLeadingComments "#b i /**//x \x7bsuper!\x7d".toList =
      .ok ([], "#b i /**//x \x7bsuper!\x7d".toList) := by
    rw [readLeadingComments_eq, if_neg (by decide)]
    rfl
  have hname : readBlockName "#b i /**//x \x7bsuper!\x7d".toList =
      .ok (some "b", " i /**//x \x7bsuper!\x7d".toList) := rfl
  have hi : readItem false " i /**//x \x7bsuper!\x7d".toList =
      .ok (.head ⟨false, some "i", none, none⟩, "/**//x \x7bsuper!\x7d".toList) := rfl
  have hcomment : readItem false "/**//x \x7bsuper!\x7d".toList =
      .ok (.node (.comment "" true), "/x \x7bsuper!\x7d".toList) := rfl
  have hlist : IsNameList [some "x"] := by
    have hname : IsName .element "x" := .inl ⟨'x', [], rfl, by decide, by simp⟩
    exact ⟨["x"], by simp, by simpa using hname, .inl rfl⟩
  have hnamed : HeadNamed ⟨false, none, some [some "x"], none⟩ := by
    refine ⟨by simp, by simp, ?_, by simp⟩
    intro names h
    cases h
    exact hlist
  have hhead : HeadText ⟨false, none, some [some "x"], none⟩ ['/', 'x'] :=
    ⟨_, _, .written .nil (fun _ => rfl) (.identified .nil .last), .absent, rfl⟩
  have hx : readItem false "/x \x7bsuper!\x7d".toList =
      .ok (.head ⟨false, none, some [some "x"], none⟩, '\x7b' :: "super!\x7d".toList) :=
    readItem_head .nil hhead hnamed (endsHead_brace _ (Spaces.nil.cons (by decide)) "super!\x7d".toList)
  have hinner : contentOf (some ('\x7b' :: "super!\x7d".toList)) "super!\x7d".toList =
      .ok ([.superCall ⟨none⟩], []) := contentOf_node rfl (contentOf_ending .nil .brace)
  have hend : contentOf none [] = .ok ([], []) := contentOf_ending .nil .source
  have hafter : contentOf none "/**//x \x7bsuper!\x7d".toList = .ok (strongLead.content.drop 1, []) :=
    @contentOf_node none _ _ _ _ _ hcomment (@contentOf_bracketed none _ _ _ _ _ _ _ hx hinner hend)
  have hslash (u : List Char) : "/**//x \x7bsuper!\x7d".toList ≠ '\x7b' :: u := by simp
  exact readDocument_eq hcomments hname (@contentOf_bare none _ _ _ _ _ hi hslash hafter)

theorem strongLead_wellFormed : parse "#b i /**//x \x7bsuper!\x7d" = .ok strongLead ∧ BlockWellFormed strongLead :=
  have h : parse "#b i /**//x \x7bsuper!\x7d" = .ok strongLead := parse_eq_ok.2 readDocument_strongLead
  ⟨h, (parse_wellFormed h).1⟩

end BlockTemplates.Source
