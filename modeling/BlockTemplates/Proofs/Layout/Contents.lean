/-
Content as it is written. Spaces stand between nodes and may stand everywhere around them; a comment that ends with its
line is followed by the line end. Content that is well formed is read back: every node ends where it was written to end,
because nothing that may follow it could be read as a part of it.

Main statements: `contentOf_written` (content is read back) and `exists_contentText` (all content can be written).
-/
import BlockTemplates.Proofs.Layout.Heads
import BlockTemplates.Source.Document

namespace BlockTemplates.Source

open Markup

/-! ## What is written -/

/-- nodes that are still to come begin after a space -/
def Parted (ns : List Node) (rest : List Char) : Prop := ns ≠ [] → ∃ c r, rest = c :: r ∧ isSpace c = true

/-- nodes with the spaces before and after them -/
inductive ContentText : List Node → List Char → Prop
  | done {s} : Spaces s → ContentText [] s
  | text {value ns s l rest} : Spaces s → IsLiteral value l → Parted ns rest → ContentText ns rest →
    ContentText (.text value :: ns) (s ++ (l ++ rest))
  | line {value ns s c rest} : Spaces s → isLineEnd c = true → ContentText ns (c :: rest) →
    ContentText (.comment value false :: ns) (s ++ '/' :: '/' :: (value.toList ++ c :: rest))
  | block {value ns s rest} : Spaces s → Parted ns rest → ContentText ns rest →
    ContentText (.comment value true :: ns) (s ++ '/' :: '*' :: (value.toList ++ '*' :: '/' :: rest))
  | superCall {call ns s rest} : Spaces s → Parted ns rest → ContentText ns rest →
    ContentText (.superCall call :: ns) (s ++ (superCallText call ++ rest))
  | bare {h ns s t rest} : Spaces s → HeadText h t → Parted ns rest → ContentText ns rest →
    ContentText (.element (h.element none) :: ns) (s ++ (t ++ rest))
  | bracketed {h content ns s t s' u rest} : Spaces s → HeadText h t → Spaces s' → ContentText content u →
    Parted ns rest → ContentText ns rest →
    ContentText (.element (h.element (some content)) :: ns) (s ++ (t ++ (s' ++ '\x7b' :: (u ++ '\x7d' :: rest))))

/-! ## What is well formed -/

def headOf (e : Element) : Head := ⟨e.isHelper, e.tagName, e.names, e.attributes⟩

/-- written one after the other, the first element would take the second one for its names -/
def Joins (e f : Element) : Prop :=
  (e.names = none ∧ e.attributes = none ∧ e.content = none) ∧ f.isHelper = false ∧ f.tagName = none

/-- content that can be written, inside braces or outside -/
inductive WellFormed : Bool → List Node → Prop
  | nil {inBraces} : WellFormed inBraces []
  | text {inBraces value ns} : WellFormed inBraces ns → WellFormed inBraces (.text value :: ns)
  | line {inBraces value ns} : OneLine value.toList → WellFormed inBraces ns →
    WellFormed inBraces (.comment value false :: ns)
  | block {inBraces value ns} : Unclosed value.toList → WellFormed inBraces ns →
    WellFormed inBraces (.comment value true :: ns)
  | superCall {call ns} : (∀ name, call.elementName = some name → IsName .element name) → WellFormed true ns →
    WellFormed true (.superCall call :: ns)
  | element {inBraces e ns} : HeadNamed (headOf e) → WellFormed true (e.content.getD []) →
    (∀ f ns', ns = .element f :: ns' → ¬ Joins e f) → WellFormed inBraces ns → WellFormed inBraces (.element e :: ns)

/-! ## Reading content -/

/-- what reading content gives, without the proof that it is a rest -/
def contentOf (opening : Option (List Char)) (s : List Char) : Except Fault (List Node × List Char) :=
  (readContent opening s).map (·.1)

theorem contentOf_eq (opening : Option (List Char)) (s : List Char) :
    contentOf opening s =
      match readItem opening.isSome s with
      | .error f => .error f
      | .ok (.finish, _) =>
        match opening with
        | some brace => .error ⟨.missingClosingBrace, brace⟩
        | none => .ok ([], [])
      | .ok (.close, r) => .ok ([], r)
      | .ok (.node n, r) => (contentOf opening r).map fun p => (n :: p.1, p.2)
      | .ok (.head e, '\x7b' :: r) =>
        (contentOf (some ('\x7b' :: r)) r).bind fun p =>
          (contentOf opening p.2).map fun q => (.element (e.element (some p.1)) :: q.1, q.2)
      | .ok (.head e, r) => (contentOf opening r).map fun p => (.element (e.element none) :: p.1, p.2) := by
  unfold contentOf
  rw [readContent]
  split
  · rename_i h
    simp only [h]
    rfl
  · rename_i h
    simp only [h]
    cases opening with
    | none => rfl
    | some brace => rfl
  · rename_i h
    simp only [h]
    rfl
  · rename_i n r h
    simp only [h]
    cases readContent opening r with
    | error f => rfl
    | ok p => rfl
  · rename_i e r h
    simp only [h]
    cases readContent (some ('\x7b' :: r)) r with
    | error f => rfl
    | ok p =>
      obtain ⟨⟨content, u⟩, hu⟩ := p
      simp only [Except.map, Except.bind]
      cases readContent opening u with
      | error f => rfl
      | ok q => rfl
  · rename_i e r hne h
    simp only [h]
    cases readContent opening r with
    | error f => simp only [Except.map]
    | ok q =>
      obtain ⟨⟨ns, u⟩, hu⟩ := q
      simp only [Except.map]

/-! ## Items -/

section

variable {inBraces : Bool} {s rest : List Char}

theorem readItem_congr {s s' : List Char} (h : skipSpaces s = skipSpaces s') :
    readItem inBraces s = readItem inBraces s' := by
  unfold readItem
  rw [h]

/-- spaces before content say nothing -/
theorem contentOf_congr {opening : Option (List Char)} {s s' : List Char} (h : skipSpaces s = skipSpaces s') :
    contentOf opening s = contentOf opening s' := by
  rw [contentOf_eq, contentOf_eq opening s', readItem_congr h]

theorem readItem_text {value : String} {l : List Char} (hs : Spaces s) (hl : IsLiteral value l) :
    readItem inBraces (s ++ (l ++ rest)) = .ok (.node (.text value), rest) := by
  have hread := readLiteral_word hl rest
  obtain ⟨quote, ws, hq, -, rfl⟩ := hl
  have hquote : isQuote quote = true := by rcases hq with rfl | rfl <;> rfl
  have hspace : isSpace quote = false := by rcases hq with rfl | rfl <;> decide
  unfold readItem
  rw [List.cons_append, skipSpaces_append_cons hs hspace]
  rw [List.cons_append] at hread
  simp only [hquote, if_true, hread, bind, Except.bind]
  rfl

theorem atComment_of_ne {c : Char} (h : c ≠ '/') (s : List Char) : atComment (c :: s) = false := by
  unfold atComment
  split
  · rename_i heq
    exact absurd (List.cons.inj heq).1 h
  · rename_i heq
    exact absurd (List.cons.inj heq).1 h
  · rfl

theorem readItem_comment (h : atComment (skipSpaces s) = true) :
    readItem inBraces s =
      (readComment (skipSpaces s)).map fun p => (.node (.comment p.1.value p.1.multiline), p.2) := by
  unfold readItem
  split
  · rename_i hs
    rw [hs] at h
    contradiction
  · rename_i c r hs
    rw [hs] at h
    have hquote : isQuote c = false := by
      by_cases hc : c = '/'
      · rw [hc]
        rfl
      · rw [atComment_of_ne hc] at h
        contradiction
    simp only [hs, hquote, Bool.false_eq_true, if_false, h, if_true, bind, Except.bind]
    cases readComment (c :: r) with
    | error f => rfl
    | ok p => rfl

theorem readItem_superCall {call : SuperCall} (hs : Spaces s)
    (hn : ∀ name, call.elementName = some name → IsName .element name) :
    readItem true (s ++ (superCallText call ++ rest)) = .ok (.node (.superCall call), rest) := by
  have hread := readSuperCall_word hn rest
  obtain ⟨cs, hcs⟩ := superCallText_start call
  rw [hcs] at hread ⊢
  have hquote : isQuote 's' = false := by decide
  have hat : atComment ('s' :: (cs ++ rest)) = false := rfl
  unfold readItem
  rw [List.cons_append, skipSpaces_append_cons hs (by decide)]
  rw [List.cons_append] at hread
  simp only [hquote, Bool.false_eq_true, if_false, hat, if_true, hread]
  rfl

theorem isNameChar_starts {c : Char} (h : isNameChar c = true) : isQuote c = false ∧ c ≠ '\x7d' ∧ c ≠ '/' := by
  have hquote : isQuote c = false := by
    rw [Bool.eq_false_iff]
    intro hc
    simp only [isQuote, Bool.or_eq_true, beq_iff_eq] at hc
    rcases hc with (rfl | rfl) | rfl <;> exact absurd h (by decide)
  refine ⟨hquote, ?_, ?_⟩
  · rintro rfl
    exact absurd h (by decide)
  · rintro rfl
    exact absurd h (by decide)

/-- a head begins like nothing else that may stand in content -/
theorem HeadText.item {h : Head} {t : List Char} (ht : HeadText h t) (hn : HeadNamed h) (hr : EndsHead h rest) :
    ∃ c cs, t = c :: cs ∧ isSpace c = false ∧ isQuote c = false ∧ c ≠ '\x7d' ∧ atComment (t ++ rest) = false ∧
      readSuperCall (t ++ rest) = none := by
  obtain ⟨u, v, hu, hv, rfl⟩ := ht
  have hword : EndsWord (u ++ (v ++ rest)) := hu.endsWord (hv.ends hr).1
  cases hh : h.isHelper with
  | true => exact ⟨'@', _, rfl, by decide, by decide, by decide, rfl, rfl⟩
  | false =>
    cases htag : h.tagName with
    | some tag =>
      have hcall := readSuperCall_name (hn.tag tag htag) hword
      obtain ⟨c, cs, hs, hc⟩ := IsName.start (hn.tag tag htag)
      rw [hs] at hcall
      have htext : markText false ++ (tagText (some tag) ++ (u ++ v)) = c :: (cs ++ (u ++ v)) := by
        simp [markText, tagText, hs]
      obtain ⟨hquote, hclose, hslash⟩ := isNameChar_starts hc
      refine ⟨c, _, htext, isSpace_of_isNameChar hc, hquote, hclose, ?_, ?_⟩
      · rw [htext]
        exact atComment_of_ne hslash _
      · rw [htext]
        simpa using hcall
    | none =>
      generalize hnames : h.names = names at hu
      cases hu with
      | absent => exact absurd hnames (hn.present.resolve_left (by simp [htag]))
      | @written names s t _ hs ht =>
        rw [hs htag]
        have hat := ht.atComment (hn.names names hnames) (v ++ rest)
        rw [← List.append_assoc] at hat
        exact ⟨'/', t ++ v, rfl, by decide, by decide, by decide, hat, rfl⟩

theorem readItem_head {h : Head} {t : List Char} (hs : Spaces s) (ht : HeadText h t) (hn : HeadNamed h)
    (hr : EndsHead h rest) : readItem inBraces (s ++ (t ++ rest)) = .ok (.head h, skipSpaces rest) := by
  have hread := readHead_written ht hn hr
  obtain ⟨c, cs, rfl, hspace, hquote, hclose, hat, hcall⟩ := ht.item hn hr
  unfold readItem
  rw [List.cons_append, skipSpaces_append_cons hs hspace]
  rw [List.cons_append] at hread hat hcall
  simp only [hquote, hat, hclose, hcall, hread, Bool.false_eq_true, if_false, false_and, ite_self, bind, Except.bind]
  rfl

end

/-! ## What follows -/

/-- where content may end, and what is left then -/
inductive Ending : Option (List Char) → List Char → List Char → Prop
  | source : Ending none [] []
  | brace {opening rest} : Ending (some opening) ('\x7d' :: rest) rest

/-- content begins like nothing that a head could go on with, unless it is an element without tag -/
def Begins (ns : List Node) (s : List Char) : Prop :=
  ∀ c, s.head? = some c → c ∉ ['(', ',', '\x7b'] ∧
    (c = '/' → atComment s = true ∨ ∃ f ns', ns = .element f :: ns' ∧ f.isHelper = false ∧ f.tagName = none)

section

variable {opening : Option (List Char)} {ns : List Node} {t tail after : List Char}

theorem Ending.endsWord (he : Ending opening tail after) : EndsWord tail := by
  cases he with
  | source => exact endsWord_nil
  | brace => exact endsWord_cons (by decide)

theorem begins_cons {c : Char} {s : List Char} (hs : Spaces s) (hc : isSpace c = false)
    (hn : c ∉ ['/', '(', ',', '\x7b']) (r : List Char) : Begins ns (skipSpaces (s ++ c :: r)) := by
  rw [skipSpaces_append_cons hs hc]
  rw [List.mem_cons, not_or] at hn
  exact forall_head?_cons ⟨hn.2, fun hslash => absurd hslash hn.1⟩

theorem begins_slash {s r : List Char} (hs : Spaces s)
    (h : atComment ('/' :: r) = true ∨ ∃ f ns', ns = .element f :: ns' ∧ f.isHelper = false ∧ f.tagName = none) :
    Begins ns (skipSpaces (s ++ '/' :: r)) := by
  rw [skipSpaces_append_cons hs (by decide)]
  exact forall_head?_cons ⟨by decide, fun _ => h⟩

theorem HeadText.begins {h : Head} {content : Option (List Node)} {s t : List Char} (hs : Spaces s) (ht : HeadText h t)
    (hn : HeadNamed h) (rest : List Char) :
    Begins (.element (h.element content) :: ns) (skipSpaces (s ++ (t ++ rest))) := by
  obtain ⟨c, cs, rfl, ⟨rfl, -⟩ | ⟨hc, -⟩ | ⟨rfl, hhelper, htag⟩⟩ := ht.start hn
  · exact begins_cons hs (by decide) (by decide) _
  · apply begins_cons hs (isSpace_of_isNameChar hc)
    intro hmem
    simp only [List.mem_cons, List.not_mem_nil, or_false] at hmem
    rcases hmem with rfl | rfl | rfl | rfl <;> exact absurd hc (by decide)
  · exact begins_slash hs (.inr ⟨_, _, rfl, hhelper, htag⟩)

theorem Ending.begins (he : Ending opening tail after) : Begins ns (skipSpaces tail) := by
  cases he with
  | source =>
    intro c hc
    simp [skipSpaces] at hc
  | brace => exact begins_cons .nil (by decide) (by decide) _

theorem ContentText.begins {inBraces : Bool} (h : ContentText ns t) (hw : WellFormed inBraces ns)
    (he : Ending opening tail after) : Begins ns (skipSpaces (t ++ tail)) := by
  cases h with
  | done hs =>
    rw [skipSpaces_append hs]
    exact he.begins
  | text hs hl _ _ =>
    obtain ⟨quote, ws, hq, -, rfl⟩ := hl
    rw [List.append_assoc, List.append_assoc, List.cons_append]
    rcases hq with rfl | rfl
    · exact begins_cons hs (by decide) (by decide) _
    · exact begins_cons hs (by decide) (by decide) _
  | line hs _ _ =>
    rw [List.append_assoc]
    exact begins_slash hs (.inl rfl)
  | block hs _ _ =>
    rw [List.append_assoc]
    exact begins_slash hs (.inl rfl)
  | @superCall call ns s rest hs _ _ =>
    obtain ⟨cs, hcs⟩ := superCallText_start call
    rw [hcs, List.append_assoc]
    exact begins_cons hs (by decide) (by decide) _
  | bare hs ht _ _ =>
    cases hw with
    | element hn _ _ _ =>
      rw [List.append_assoc, List.append_assoc]
      exact HeadText.begins hs ht hn _
  | bracketed hs ht _ _ _ _ =>
    cases hw with
    | element hn _ _ _ =>
      rw [List.append_assoc, List.append_assoc]
      exact HeadText.begins hs ht hn _

theorem ContentText.endsWord (h : ContentText ns t) (hp : Parted ns t) (he : Ending opening tail after) :
    EndsWord (t ++ tail) := by
  cases ns with
  | nil =>
    cases h with
    | done hs => exact hs.endsWord he.endsWord
  | cons n ns =>
    obtain ⟨c, r, rfl, hc⟩ := hp (by simp)
    exact endsWord_cons (endsWord_of_isSpace hc)

/-- an element without content ends where it was written to end -/
theorem ContentText.endsHead {inBraces : Bool} {h : Head} (ht : ContentText ns t) (hp : Parted ns t)
    (hw : WellFormed inBraces ns) (he : Ending opening tail after)
    (hj : ∀ f ns', ns = .element f :: ns' → ¬ Joins (h.element none) f) : EndsHead h (t ++ tail) where
  word := ht.endsWord hp he
  next c hc := by
    have hmem := (ht.begins hw he c hc).1
    simp only [List.mem_cons, not_or] at hmem
    exact ⟨hmem.1, hmem.2.1⟩
  slash hnames hattributes hc := by
    rcases (ht.begins hw he '/' hc).2 rfl with hat | ⟨f, ns', hns, hf⟩
    · exact hat
    · exact absurd ⟨⟨hnames, hattributes, rfl⟩, hf⟩ (hj f ns' hns)

theorem endsHead_brace {s : List Char} (h : Head) (hs : Spaces s) (rest : List Char) :
    EndsHead h (s ++ '\x7b' :: rest) := by
  have hskip : skipSpaces (s ++ '\x7b' :: rest) = '\x7b' :: rest := skipSpaces_append_cons hs (by decide) rest
  refine ⟨hs.endsWord (endsWord_cons (by decide)), ?_, ?_⟩
  · rw [hskip]
    exact forall_head?_cons (by decide)
  · rw [hskip]
    intro _ _ hc
    exact absurd (Option.some.inj hc) (by decide)

end

/-! ## Content is read back -/

section

variable {opening : Option (List Char)} {ns : List Node} {t tail after : List Char}

theorem contentOf_ending {s : List Char} (hs : Spaces s) (he : Ending opening tail after) :
    contentOf opening (s ++ tail) = .ok ([], after) := by
  calc contentOf opening (s ++ tail) = contentOf opening tail := contentOf_congr (skipSpaces_append hs tail)
    _ = .ok ([], after) := by
      rw [contentOf_eq]
      cases he with
      | source => rfl
      | brace => rfl

theorem contentOf_node {n : Node} {s r : List Char} (hi : readItem opening.isSome s = .ok (.node n, r))
    (hr : contentOf opening r = .ok (ns, after)) : contentOf opening s = .ok (n :: ns, after) := by
  rw [contentOf_eq, hi]
  simp only [hr]
  rfl

theorem contentOf_comment {s : List Char} (h : atComment (skipSpaces s) = true) :
    contentOf opening s =
      (readComment (skipSpaces s)).bind fun p =>
        (contentOf opening p.2).map fun q => (.comment p.1.value p.1.multiline :: q.1, q.2) := by
  rw [contentOf_eq, readItem_comment h]
  cases readComment (skipSpaces s) with
  | error f => rfl
  | ok p => rfl

theorem contentOf_commentText {c : Comment} {s r rest : List Char} (hs : Spaces s) (hat : atComment ('/' :: r) = true)
    (hread : readComment ('/' :: r) = .ok (c, rest)) (hrest : contentOf opening rest = .ok (ns, after)) :
    contentOf opening (s ++ '/' :: r) = .ok (.comment c.value c.multiline :: ns, after) := by
  have hskip : skipSpaces (s ++ '/' :: r) = '/' :: r := skipSpaces_append_cons hs (by decide) r
  rw [contentOf_comment (by rw [hskip]; exact hat), hskip, hread]
  simp only [Except.bind, hrest]
  rfl

theorem contentOf_bare {h : Head} {s r : List Char} (hi : readItem opening.isSome s = .ok (.head h, r))
    (hbrace : ∀ u, r ≠ '\x7b' :: u) (hr : contentOf opening r = .ok (ns, after)) :
    contentOf opening s = .ok (.element (h.element none) :: ns, after) := by
  rw [contentOf_eq, hi]
  simp only [hr]
  rfl

theorem contentOf_bracketed {h : Head} {content : List Node} {s r u : List Char}
    (hi : readItem opening.isSome s = .ok (.head h, '\x7b' :: r))
    (hcontent : contentOf (some ('\x7b' :: r)) r = .ok (content, u)) (hr : contentOf opening u = .ok (ns, after)) :
    contentOf opening s = .ok (.element (h.element (some content)) :: ns, after) := by
  rw [contentOf_eq, hi]
  simp only [hcontent, Except.bind, hr]
  rfl

/-- content is read back, up to the end it has -/
theorem contentOf_written (h : ContentText ns t) (hw : WellFormed opening.isSome ns) (he : Ending opening tail after) :
    contentOf opening (t ++ tail) = .ok (ns, after) := by
  generalize hb : opening.isSome = inBraces at hw
  induction h generalizing opening inBraces tail after with
  | done hs => exact contentOf_ending hs he
  | text hs hl _ _ ih =>
    cases hw with
    | text hw =>
      simp only [List.append_assoc]
      exact contentOf_node (readItem_text hs hl) (ih he _ hb hw)
  | @line value ns s c rest hs hc _ ih =>
    cases hw with
    | line hv hw =>
      have hread := readComment_line hv hc (rest ++ tail)
      rw [String.ofList_toList] at hread
      simp only [List.append_assoc, List.cons_append]
      exact contentOf_commentText hs rfl hread (ih he _ hb hw)
  | @block value ns s rest hs _ _ ih =>
    cases hw with
    | block hv hw =>
      have hread := readComment_block hv (rest ++ tail)
      rw [String.ofList_toList] at hread
      simp only [List.append_assoc, List.cons_append]
      exact contentOf_commentText hs rfl hread (ih he _ hb hw)
  | superCall hs _ _ ih =>
    cases hw with
    | superCall hn hw =>
      simp only [List.append_assoc]
      exact contentOf_node (hb ▸ readItem_superCall hs hn) (ih he _ hb hw)
  | @bare h ns s t rest hs ht hp hns ih =>
    cases hw with
    | element hn _ hj hw =>
      have hitem : readItem opening.isSome (s ++ (t ++ (rest ++ tail))) = .ok (.head h, skipSpaces (rest ++ tail)) :=
        readItem_head hs ht hn (hns.endsHead hp hw he hj)
      have hbrace : ∀ u, skipSpaces (rest ++ tail) ≠ '\x7b' :: u := fun u hu =>
        (hns.begins hw he '\x7b' (by rw [hu]; rfl)).1 (by decide)
      simp only [List.append_assoc]
      refine contentOf_bare hitem hbrace ?_
      calc contentOf opening (skipSpaces (rest ++ tail)) = contentOf opening (rest ++ tail) :=
            contentOf_congr (skipSpaces_skipSpaces _)
        _ = .ok (ns, after) := ih he _ hb hw
  | @bracketed h content ns s t s' u rest hs ht hs' hu _ hns ihu ih =>
    cases hw with
    | element hn hcontent _ hw =>
      have hitem : readItem opening.isSome (s ++ (t ++ (s' ++ '\x7b' :: (u ++ '\x7d' :: (rest ++ tail))))) =
          .ok (.head h, '\x7b' :: (u ++ '\x7d' :: (rest ++ tail))) := by
        rw [readItem_head hs ht hn (endsHead_brace h hs' _), skipSpaces_append_cons hs' (by decide)]
      simp only [List.append_assoc, List.cons_append]
      exact contentOf_bracketed hitem (ihu .brace _ rfl hcontent) (ih he _ hb hw)

end

/-! ## All content can be written -/

/-- all content can be written, each node on its own line -/
theorem exists_contentText {inBraces : Bool} {ns : List Node} (hw : WellFormed inBraces ns) :
    ∃ t, ContentText ns ('\n' :: t) := by
  have hparted {ns : List Node} {t : List Char} : Parted ns ('\n' :: t) := fun _ => ⟨'\n', t, rfl, rfl⟩
  have hline : Spaces ['\n'] := Spaces.nil.cons rfl
  induction hw with
  | nil => exact ⟨[], .done hline⟩
  | @text _ value ns _ ih =>
    obtain ⟨rest, hrest⟩ := ih
    obtain ⟨l, hl⟩ := exists_literal value
    exact ⟨_, .text hline hl hparted hrest⟩
  | line _ _ ih =>
    obtain ⟨rest, hrest⟩ := ih
    exact ⟨_, .line hline rfl hrest⟩
  | block _ _ ih =>
    obtain ⟨rest, hrest⟩ := ih
    exact ⟨_, .block hline hparted hrest⟩
  | superCall _ _ ih =>
    obtain ⟨rest, hrest⟩ := ih
    exact ⟨_, .superCall hline hparted hrest⟩
  | @element _ e ns hn _ _ _ ihcontent ih =>
    obtain ⟨rest, hrest⟩ := ih
    obtain ⟨u, hu⟩ := ihcontent
    obtain ⟨t, ht⟩ := exists_headText hn
    obtain ⟨isHelper, tag, names, attributes, content | content⟩ := e
    · exact ⟨_, .bare hline ht hparted hrest⟩
    · exact ⟨_, .bracketed hline ht .nil hu hparted hrest⟩

end BlockTemplates.Source
