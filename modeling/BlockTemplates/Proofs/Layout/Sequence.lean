/-
Text after text. A source, a line feed and a second source that names no block are one source with the content of both,
in turn. Every reader that has succeeded in the first source succeeds in the same way when the second one follows; only
the last element of the first source, if it is a tag and nothing else, could go on with the names of an element that the
second source begins with.

Main statements: `readItem_newline` (an item is read again), `contentOf_newline` (content, inside braces and outside) and
`parse_newline`.
-/
import BlockTemplates.Proofs.Layout.Lines

namespace BlockTemplates.Source

open Markup

/-! ## Items -/

section

variable {inBraces : Bool} {s r : List Char} {i : Item}

theorem readItem_cons {c : Char} {t : List Char} (hs : skipSpaces s = c :: t) :
    readItem inBraces s =
      if isQuote c then (readLiteral (c :: t)).map fun p => (.node (.text p.1), p.2)
      else if atComment (c :: t) then
        (readComment (c :: t)).map fun p => (.node (.comment p.1.value p.1.multiline), p.2)
      else if c = '\x7d' ∧ inBraces then .ok (.close, t)
      else
        match if inBraces then readSuperCall (c :: t) else none with
        | some (call, r) => .ok (.node (.superCall call), r)
        | none => (readHead (c :: t)).map fun p => (.head p.1, p.2) := by
  unfold readItem
  rw [hs]
  rfl

/-- behind a head, the spaces are skipped too -/
def Item.skipAfter : Item → List Char → List Char
  | .head _, s => skipSpaces s
  | _, s => s

theorem readItem_finish (h : readItem inBraces s = .ok (.finish, r)) : skipSpaces s = [] := by
  rcases readItem_eq_ok h with ⟨-, h⟩ | ⟨h, -⟩ | ⟨value, h⟩ | ⟨c, -, h⟩ | ⟨call, -, -, h⟩ | ⟨e, -, h⟩
  · exact h
  all_goals cases h

theorem readItem_close (h : readItem inBraces s = .ok (.close, r)) : inBraces = true := by
  rcases readItem_eq_ok h with ⟨h, -⟩ | ⟨-, h⟩ | ⟨value, h⟩ | ⟨c, -, h⟩ | ⟨call, -, -, h⟩ | ⟨e, -, h⟩
  · cases h
  · exact h
  all_goals cases h

/-- an item is read again, and no more than it -/
theorem readItem_newline (more : List Char) (h : readItem inBraces s = .ok (i, r)) (hi : i ≠ .finish)
    (hend : ∀ e, i = .head e → r = [] → EndsHead e ('\n' :: more)) :
    readItem inBraces (s ++ '\n' :: more) = .ok (i, i.skipAfter (r ++ '\n' :: more)) := by
  rcases hs : skipSpaces s with _ | ⟨c, t⟩
  · unfold readItem at h
    rw [hs] at h
    exact absurd (Prod.mk.inj (Except.ok.inj h)).1.symm hi
  · have hat := atComment_newline (c :: t) more
    have hcall := superCallWhere_newline inBraces (c :: t) more
    rw [List.cons_append] at hat hcall
    rw [readItem_cons (skipSpaces_append_of_cons hs _), hat, hcall]
    rw [readItem_cons hs] at h
    generalize (if inBraces then readSuperCall (c :: t) else none) = found at h ⊢
    split_ifs at h ⊢ with hquote hcomment hclose
    · obtain ⟨p, hp, h⟩ := map_eq_ok.1 h
      cases h
      have hread := readLiteral_newline more hp
      rw [List.cons_append] at hread
      rw [hread]
      rfl
    · obtain ⟨p, hp, h⟩ := map_eq_ok.1 h
      cases h
      have hread := readComment_newline more hp
      rw [List.cons_append] at hread
      rw [hread]
      rfl
    · cases h
      rfl
    · cases found with
      | some p =>
        cases h
        rfl
      | none =>
        obtain ⟨p, hp, h⟩ := map_eq_ok.1 h
        cases h
        have hread := readHead_newline more hp (hend p.1 rfl)
        rw [List.cons_append] at hread
        simp only [Option.map_none, hread]
        rfl

/-- a head begins with the at sign, with its tag, or with the slash before its names -/
theorem readHead_begins {e : Head} {c : Char} {t : List Char} (h : readHead (c :: t) = .ok (e, r)) :
    c = '@' ∨ isNameChar c = true ∨ c = '/' ∧ e.isHelper = false ∧ e.tagName = none := by
  rcases readHelperMark_eq (c :: t) with hmark | ⟨hmark, hno⟩
  · exact .inl (List.cons.inj hmark).1
  · obtain ⟨v, hhelper, htag, -⟩ := readHead_eq_ok h
    have hplain : e.isHelper = false := by rw [hhelper, readHelperMark_absent hno]
    cases hname : e.tagName with
    | none =>
      obtain ⟨hhead, -⟩ := readHead_start h hplain hname
      exact .inr (.inr ⟨Option.some.inj hhead, hplain, rfl⟩)
    | some tag =>
      rw [hname, ← hmark] at htag
      unfold readTag at htag
      split at htag
      · rename_i name u hread
        obtain ⟨d, ds, hname, hd⟩ := (readName_isName hread).start
        have hfront := (readName_eq_some hread).2.2
        rw [hname] at hfront
        exact .inr (.inl ((List.cons.inj hfront).1 ▸ hd))
      · contradiction

theorem readSuperCall_start {call : SuperCall} (h : readSuperCall s = some (call, r)) : s.head? = some 's' := by
  obtain ⟨cs, hcs⟩ := superCallText_start call
  rw [readSuperCall_eq_append h, hcs]
  rfl

/-- what begins an item goes on with no head before it, except for the slash before the names of an element -/
theorem readItem_begins (h : readItem inBraces s = .ok (i, r)) {c : Char} (hc : (skipSpaces s).head? = some c) :
    c ∉ ['(', ',', '\x7b'] ∧
      (c = '/' → atComment (skipSpaces s) = true ∨ ∃ e, i = .head e ∧ e.isHelper = false ∧ e.tagName = none) := by
  obtain ⟨t, hs⟩ := List.head?_eq_some_iff.1 hc
  rw [readItem_cons hs] at h
  rw [hs]
  have hplain (hc : c ∉ ['/', '(', ',', '\x7b']) : c ∉ ['(', ',', '\x7b'] ∧
      (c = '/' → atComment (c :: t) = true ∨ ∃ e, i = .head e ∧ e.isHelper = false ∧ e.tagName = none) := by
    rw [List.mem_cons, not_or] at hc
    exact ⟨hc.2, fun hslash => absurd hslash hc.1⟩
  generalize hfound : (if inBraces then readSuperCall (c :: t) else none) = found at h
  split_ifs at h with hquote hcomment hclose
  · rcases isQuote_iff.1 hquote with rfl | rfl | rfl <;> exact hplain (by decide)
  · obtain ⟨u, hu, -⟩ := atComment_iff.1 hcomment
    obtain ⟨rfl, -⟩ := List.cons.inj hu
    exact ⟨by decide, fun _ => .inl hcomment⟩
  · obtain ⟨rfl, -⟩ := hclose
    exact hplain (by decide)
  · cases found with
    | some p =>
      have hcall : readSuperCall (c :: t) = some (p.1, p.2) := by
        cases inBraces with
        | true => exact hfound
        | false => contradiction
      obtain rfl := Option.some.inj (readSuperCall_start hcall)
      exact hplain (by decide)
    | none =>
      obtain ⟨p, hp, h⟩ := map_eq_ok.1 h
      cases h
      rcases readHead_begins hp with rfl | hchar | ⟨rfl, hhead⟩
      · exact hplain (by decide)
      · apply hplain
        intro hmem
        simp only [List.mem_cons, List.not_mem_nil, or_false] at hmem
        rcases hmem with rfl | rfl | rfl | rfl <;> exact absurd hchar (by decide)
      · exact ⟨by decide, fun _ => .inr ⟨_, rfl, hhead⟩⟩

end

/-! ## Content -/

/-- How reading goes on where the content of the first text ends, and what it gives then: in braces the content has
ended, outside of braces the content of the text behind the line feed comes next. -/
inductive Resumes (more : List Char) :
    Option (List Char) → Option (List Char) → List Char → List Node → List Char → Prop
  | source {r ns' r'} : contentOf none ('\n' :: more) = .ok (ns', r') → Resumes more none none r ns' r'
  | braces {brace brace' r} : Resumes more (some brace) (some brace') r [] (r ++ '\n' :: more)

section

variable {opening opening' : Option (List Char)} {s r r' more : List Char} {ns ns' : List Node}

/-- the item that content begins with, which makes an element its first node -/
theorem readItem_of_contentOf (h : contentOf opening s = .ok (ns, r)) :
    ∃ i t, readItem opening.isSome s = .ok (i, t) ∧
      ∀ e, i = .head e → ∃ content ns', ns = .element (e.element content) :: ns' := by
  rw [contentOf_eq] at h
  split at h
  · contradiction
  · exact ⟨_, _, ‹_›, by simp⟩
  · exact ⟨_, _, ‹_›, by simp⟩
  · exact ⟨_, _, ‹_›, by simp⟩
  · rename_i e t hitem
    obtain ⟨p, -, h⟩ := bind_eq_ok.1 h
    obtain ⟨q, -, h⟩ := map_eq_ok.1 h
    refine ⟨_, _, hitem, ?_⟩
    rintro _ ⟨⟩
    exact ⟨_, _, (Prod.mk.inj h).1.symm⟩
  · rename_i e t _ hitem
    obtain ⟨q, -, h⟩ := map_eq_ok.1 h
    refine ⟨_, _, hitem, ?_⟩
    rintro _ ⟨⟩
    exact ⟨_, _, (Prod.mk.inj h).1.symm⟩

theorem contentOf_begins (h : contentOf opening s = .ok (ns, r)) : Begins ns (skipSpaces s) := by
  obtain ⟨i, t, hitem, hhead⟩ := readItem_of_contentOf h
  intro c hc
  obtain ⟨hmem, hslash⟩ := readItem_begins hitem hc
  refine ⟨hmem, fun heq => (hslash heq).imp_right ?_⟩
  rintro ⟨e, hi, hhelper, htag⟩
  obtain ⟨content, ns', hns⟩ := hhead e hi
  exact ⟨_, ns', hns, hhelper, htag⟩

/-- behind a line feed, content ends every head that it does not begin with the names of -/
theorem endsHead_newline {e : Head} (h : contentOf opening ('\n' :: more) = .ok (ns, r))
    (hj : ∀ f, ns.head? = some (.element f) → ¬ Joins (e.element none) f) : EndsHead e ('\n' :: more) where
  word := endsWord_cons (by decide)
  next c hc := by
    have hmem := (contentOf_begins h c hc).1
    simp only [List.mem_cons, not_or] at hmem
    exact ⟨hmem.1, hmem.2.1⟩
  slash hnames hattributes hc := by
    rcases (contentOf_begins h '/' hc).2 rfl with hat | ⟨f, ns', hns, hf⟩
    · exact hat
    · exact absurd ⟨⟨hnames, hattributes, rfl⟩, hf⟩ (hj f (by rw [hns]; rfl))

theorem contentOf_nil (h : contentOf opening [] = .ok (ns, r)) : opening = none ∧ ns = [] := by
  rw [contentOf_eq] at h
  cases opening with
  | none => exact ⟨rfl, (Prod.mk.inj (Except.ok.inj h)).1.symm⟩
  | some brace => cases h

/-- an element without content stays one, unless it ends the text and what follows could be a part of it -/
theorem contentOf_bare_newline {e : Head} {t : List Char} (hitem : readItem opening.isSome s = .ok (.head e, t))
    (hbrace : ∀ u, t ≠ '\x7b' :: u)
    (hend : t = [] → EndsHead e ('\n' :: more) ∧ (skipSpaces ('\n' :: more)).head? ≠ some '\x7b')
    (hrest : contentOf opening (t ++ '\n' :: more) = .ok (ns, r)) :
    contentOf opening (s ++ '\n' :: more) = .ok (.element (e.element none) :: ns, r) := by
  have hspaces : EndsSpaces t := readHead_endsSpaces (readHead_of_item hitem)
  have hread : readItem opening.isSome (s ++ '\n' :: more) = .ok (.head e, skipSpaces (t ++ '\n' :: more)) := by
    apply readItem_newline more hitem (by simp)
    rintro _ ⟨⟩ ht
    exact (hend ht).1
  apply contentOf_bare hread
  · intro u hu
    rcases head?_skipSpaces_newline more hspaces (congrArg List.head? hu) with hhead | ⟨ht, hhead⟩
    · obtain ⟨v, hv⟩ := List.head?_eq_some_iff.1 hhead
      exact hbrace v hv
    · exact (hend ht).2 hhead
  · rwa [contentOf_congr (skipSpaces_skipSpaces _)]

/-- nodes that end a longer run of nodes end with the same element -/
theorem getLast?_of_cons {n m : Node} (h : ns.getLast? = some m) : (n :: ns).getLast? = some m := by
  rw [List.getLast?_cons, h]
  rfl

/-- content is read again, and outside of braces the content behind the line feed is read with it -/
theorem contentOf_newline (h : contentOf opening s = .ok (ns, r)) (hc : Resumes more opening opening' r ns' r')
    (hj : ∀ e f, ns.getLast? = some (.element e) → ns'.head? = some (.element f) → ¬ Joins e f) :
    contentOf opening' (s ++ '\n' :: more) = .ok (ns ++ ns', r') := by
  -- by the text that is left, since the content of an element is read by the same reader as what follows the element
  generalize hlength : s.length = n
  induction n using Nat.strongRecOn generalizing opening opening' s r ns ns' r' with
  | ind n ih =>
    subst hlength
    have hsome : opening'.isSome = opening.isSome := by
      cases hc with
      | source => rfl
      | braces => rfl
    have hempty (hs : skipSpaces s = []) : skipSpaces (s ++ '\n' :: more) = skipSpaces ('\n' :: more) := by
      rw [skipSpaces_append_left, hs, List.nil_append]
    rw [contentOf_eq] at h
    split at h
    · contradiction
    · rename_i t hitem
      cases hc with
      | source hmore =>
        obtain ⟨rfl, -⟩ := Prod.mk.inj (Except.ok.inj h)
        exact (contentOf_congr (hempty (readItem_finish hitem))).trans hmore
      | braces => contradiction
    · rename_i t hitem
      obtain ⟨rfl, rfl⟩ := Prod.mk.inj (Except.ok.inj h)
      cases hc with
      | source hmore => cases readItem_close hitem
      | braces =>
        have hread := readItem_newline more hitem (by simp) (by simp)
        rw [contentOf_eq]
        simp only [Option.isSome_some] at hread ⊢
        rw [hread]
        rfl
    · rename_i n t hitem
      obtain ⟨p, hp, h⟩ := map_eq_ok.1 h
      obtain ⟨rfl, rfl⟩ := Prod.mk.inj h
      have hread := readItem_newline more hitem (by simp) (by simp)
      have hrest := ih _ (readItem_isRest hitem (by simp)).2 hp hc (fun e f he => hj e f (getLast?_of_cons he)) rfl
      exact contentOf_node (hsome ▸ hread) hrest
    · rename_i e t hitem
      obtain ⟨p, hp, h⟩ := bind_eq_ok.1 h
      obtain ⟨q, hq, h⟩ := map_eq_ok.1 h
      obtain ⟨rfl, rfl⟩ := Prod.mk.inj h
      have ht : IsRest t s := .suffix_trans (List.suffix_cons _ _) (readItem_isRest hitem (by simp))
      have hu : IsRest p.2 s := .suffix_trans (contentOf_suffix hp) ht
      have hread : readItem opening'.isSome (s ++ '\n' :: more) = .ok (.head e, '\x7b' :: (t ++ '\n' :: more)) := by
        rw [hsome, readItem_newline more hitem (by simp) (by simp)]
        rfl
      have hinner : contentOf (some ('\x7b' :: (t ++ '\n' :: more))) (t ++ '\n' :: more) =
          .ok (p.1 ++ [], p.2 ++ '\n' :: more) := ih _ ht.2 hp .braces (by simp) rfl
      have hrest := ih _ hu.2 hq hc (fun e f he => hj e f (getLast?_of_cons he)) rfl
      rw [List.append_nil] at hinner
      exact contentOf_bracketed hread hinner hrest
    · rename_i e t hbrace hitem
      obtain ⟨q, hq, h⟩ := map_eq_ok.1 h
      obtain ⟨rfl, rfl⟩ := Prod.mk.inj h
      have hrest := ih _ (readItem_isRest hitem (by simp)).2 hq hc (fun e f he => hj e f (getLast?_of_cons he)) rfl
      refine contentOf_bare_newline (hsome ▸ hitem) hbrace ?_ hrest
      intro ht
      rw [ht] at hq
      obtain ⟨rfl, hnil⟩ := contentOf_nil hq
      cases hc with
      | source hmore =>
        exact ⟨endsHead_newline hmore fun f hf => hj _ f (by rw [hnil]; rfl) hf,
          fun hhead => (contentOf_begins hmore _ hhead).1 (by decide)⟩

end

/-! ## Documents -/

section

variable {s r more : List Char}

theorem readLeadingComments_newline {ns : List Node} (h : readLeadingComments s = .ok (ns, r)) (hr : r ≠ []) :
    readLeadingComments (s ++ '\n' :: more) = .ok (ns, r ++ '\n' :: more) := by
  fun_induction readLeadingComments s generalizing ns r with
  | case1 => contradiction
  | case2 => contradiction
  | case3 s hat c t hread ns' t' hcomments ih =>
    obtain ⟨rfl, rfl⟩ := Prod.mk.inj (Except.ok.inj h)
    have hskip : skipSpaces (s ++ '\n' :: more) = skipSpaces s ++ '\n' :: more :=
      skipSpaces_append_of_ne_nil (by intro hs; rw [hs] at hat; contradiction) _
    rw [readLeadingComments_eq, hskip, atComment_newline, if_pos hat, readComment_newline more hread]
    simp only [Except.bind, ih hcomments hr]
    rfl
  | case4 s hat =>
    obtain ⟨rfl, rfl⟩ := Prod.mk.inj (Except.ok.inj h)
    rw [readLeadingComments_eq, skipSpaces_append_of_ne_nil hr, atComment_newline, if_neg hat]

/-- the number sign of a declared name -/
theorem readBlockName_eq_some {name : String} (h : readBlockName s = .ok (some name, r)) :
    ∃ t, s = '#' :: t ∧ readName .block t = some (name, r) := by
  unfold readBlockName at h
  split at h
  · rename_i t
    split at h
    · rename_i hname
      cases h
      exact ⟨t, rfl, hname⟩
    · contradiction
  · cases h

theorem readBlockName_newline {name : String} (h : readBlockName s = .ok (some name, r)) :
    readBlockName (s ++ '\n' :: more) = .ok (some name, r ++ '\n' :: more) := by
  obtain ⟨t, rfl, hname⟩ := readBlockName_eq_some h
  simp only [List.cons_append, readBlockName, readName_newline, hname, Option.map_some]

theorem readBlockName_eq_none (h : readBlockName s = .ok (none, r)) : r = s := by
  unfold readBlockName at h
  split at h
  · split at h
    · cases h
    · contradiction
  · exact (Prod.mk.inj (Except.ok.inj h)).2.symm

/-- a document without name can be read as content -/
theorem contentOf_of_readDocument {b : Block} (h : readDocument s = .ok b) (hname : b.name = none) :
    ∃ after, contentOf none s = .ok (b.content, after) := by
  obtain ⟨comments, t, t', content, after, hcomments, hread, hcontent, hb⟩ := readDocument_eq_ok h
  rw [hname] at hread
  obtain rfl := readBlockName_eq_none hread
  refine ⟨after, ?_⟩
  rw [contentOf_leadingComments, hcomments, hb]
  simp only [Except.bind, hcontent]
  rfl

/-- no element runs into the one after it -/
theorem WellFormed.not_joins {inBraces : Bool} {ns ns' : List Node} (h : WellFormed inBraces (ns ++ ns')) {e f : Element}
    (he : ns.getLast? = some (.element e)) (hf : ns'.head? = some (.element f)) : ¬ Joins e f := by
  obtain ⟨front, rfl⟩ := List.getLast?_eq_some_iff.1 he
  obtain ⟨tail, rfl⟩ := List.head?_eq_some_iff.1 hf
  rw [List.append_assoc] at h
  cases h.of_append with
  | element _ _ hj _ => exact hj f tail rfl

theorem readDocument_newline {b b' : Block} (h : readDocument s = .ok b) (h' : readDocument more = .ok b')
    (hname : b'.name = none) (hj : ∀ e f, b.content.getLast? = some (.element e) →
      b'.content.head? = some (.element f) → ¬ Joins e f) :
    readDocument (s ++ '\n' :: more) = .ok ⟨b.name, b.content ++ b'.content⟩ := by
  obtain ⟨after, hmore⟩ := contentOf_of_readDocument h' hname
  have hresumes (t : List Char) : Resumes more none none t b'.content after :=
    .source ((contentOf_congr (skipSpaces_cons_space (by decide))).trans hmore)
  cases hb : b.name with
  | none =>
    obtain ⟨after', hcontent⟩ := contentOf_of_readDocument h hb
    exact readDocument_content (contentOf_newline hcontent (hresumes _) hj)
  | some name =>
    obtain ⟨comments, t, t', content, after', hcomments, hread, hcontent, heq⟩ := readDocument_eq_ok h
    rw [hb] at hread
    obtain ⟨u, rfl, -⟩ := readBlockName_eq_some hread
    have hlast (e : Element) (he : content.getLast? = some (.element e)) :
        b.content.getLast? = some (.element e) := by
      rw [heq, List.getLast?_append, he]
      rfl
    have hboth := contentOf_newline hcontent (hresumes _) fun e f he => hj e f (hlast e he)
    have hdocument := readDocument_eq (readLeadingComments_newline hcomments (by simp)) (readBlockName_newline hread) hboth
    rwa [← List.append_assoc, ← heq] at hdocument

end

/-- **Sources can be put one after the other.** Two sources that parse, the second one without block name, are with a
line feed between them one source, with the name of the first and the contents of both in turn, unless the first ends
with an element that is a tag and nothing else and the second begins with an element of neither at sign nor tag: then the
first element would take the names of the second for its own. -/
theorem parse_newline {s₁ s₂ : String} {b₁ b₂ : Block} (h₁ : parse s₁ = .ok b₁) (h₂ : parse s₂ = .ok b₂)
    (hname : b₂.name = none) :
    parse (s₁ ++ "\n" ++ s₂) = .ok ⟨b₁.name, b₁.content ++ b₂.content⟩ ↔
      ∀ e f, b₁.content.getLast? = some (.element e) → b₂.content.head? = some (.element f) → ¬ Joins e f := by
  have htext : (s₁ ++ "\n" ++ s₂).toList = s₁.toList ++ '\n' :: s₂.toList := by
    rw [String.toList_append, String.toList_append, List.append_assoc]
    rfl
  rw [parse_eq_ok] at h₁ h₂ ⊢
  rw [htext]
  constructor
  · intro h e f he hf
    exact (readDocument_wellFormed h).content.not_joins he hf
  · exact readDocument_newline h₁ h₂ hname

/-- a slash that starts a comment may follow an element that is a tag and nothing else -/
theorem tagThenComment_is_parsed :
    parse "#b i" = .ok ⟨some "b", [.element ⟨false, some "i", none, none, none⟩]⟩ ∧
      parse "//x" = .ok ⟨none, [.comment "x" false]⟩ ∧
      parse ("#b i" ++ "\n" ++ "//x") =
        .ok ⟨some "b", [.element ⟨false, some "i", none, none, none⟩, .comment "x" false]⟩ := by
  have hend : contentOf none [] = .ok ([], []) := contentOf_ending .nil .source
  have hhead : readItem false " i".toList = .ok (.head ⟨false, some "i", none, none⟩, []) := rfl
  have hi : contentOf none " i".toList = .ok ([.element ⟨false, some "i", none, none, none⟩], []) :=
    @contentOf_bare none _ _ _ _ _ hhead (by simp) hend
  have hx : contentOf none "//x".toList = .ok ([.comment "x" false], []) := contentOf_node rfl hend
  have hcomments : readLeadingComments "#b i".toList = .ok ([], "#b i".toList) := by
    rw [readLeadingComments_eq, if_neg (by decide)]
    rfl
  have h₁ : parse "#b i" = .ok ⟨some "b", [.element ⟨false, some "i", none, none, none⟩]⟩ :=
    parse_eq_ok.2 (readDocument_eq hcomments rfl hi)
  have h₂ : parse "//x" = .ok ⟨none, [.comment "x" false]⟩ := parse_eq_ok.2 (readDocument_content hx)
  exact ⟨h₁, h₂, (parse_newline h₁ h₂ rfl).2 (by simp)⟩

end BlockTemplates.Source
