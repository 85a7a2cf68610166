/-
Documents as they are written: the name of a block, if it has one, stands behind any number of the comments that its
content begins with, and the rest of the content follows.

Main statement: `parse_written` (every block that is well formed can be written, and however it is written, its text is
read back as that block).
-/
import BlockTemplates.Proofs.Layout.Contents

namespace BlockTemplates.Source

open Markup

/-! ## What is written -/

def IsComment (n : Node) : Prop := ∃ value multiline, n = .comment value multiline

/-- a whole source -/
inductive BlockText : Block → List Char → Prop
  | nameless {content t} : ContentText content t → BlockText ⟨none, content⟩ t
  | named {name comments content t u} : (∀ n ∈ comments, IsComment n) → ContentText comments t →
    Parted content u → ContentText content u →
    BlockText ⟨some name, comments ++ content⟩ (t ++ '#' :: (name.toList ++ u))

/-- the name is one and the content can be written outside of braces -/
structure BlockWellFormed (b : Block) : Prop where
  name : ∀ name, b.name = some name → IsName .block name
  content : WellFormed false b.content

/-! ## The start of a document -/

theorem readLeadingComments_eq (s : List Char) :
    readLeadingComments s =
      if atComment (skipSpaces s) then
        (readComment (skipSpaces s)).bind fun p =>
          (readLeadingComments p.2).map fun q => (.comment p.1.value p.1.multiline :: q.1, q.2)
      else .ok ([], skipSpaces s) := by
  rw [readLeadingComments]
  split
  · split
    · rename_i h
      rw [h]
      rfl
    · rename_i comment r h
      rw [h]
      cases hr : readLeadingComments r with
      | error f => simp only [Except.bind, hr, Except.map]
      | ok q => simp only [Except.bind, hr, Except.map]
  · rfl

theorem readLeadingComments_comment {s r rest after : List Char} {c : Comment} {ns : List Node} (hs : Spaces s)
    (hat : atComment ('/' :: r) = true) (hread : readComment ('/' :: r) = .ok (c, rest))
    (hrest : readLeadingComments rest = .ok (ns, after)) :
    readLeadingComments (s ++ '/' :: r) = .ok (.comment c.value c.multiline :: ns, after) := by
  rw [readLeadingComments_eq, skipSpaces_append_cons hs (by decide), if_pos hat, hread]
  simp only [Except.bind, hrest]
  rfl

/-- comments before the name are read as such -/
theorem readLeadingComments_written {comments content : List Node} {t : List Char} (h : ContentText comments t)
    (hc : ∀ n ∈ comments, IsComment n) (hw : WellFormed false (comments ++ content)) (rest : List Char) :
    readLeadingComments (t ++ '#' :: rest) = .ok (comments, '#' :: rest) := by
  induction h with
  | done hs =>
    rw [readLeadingComments_eq, skipSpaces_append_cons hs (by decide)]
    rfl
  | @line value ns s c rest' hs hend _ ih =>
    cases hw with
    | line hv hw =>
      have hread := readComment_line hv hend (rest' ++ '#' :: rest)
      rw [String.ofList_toList] at hread
      simp only [List.append_assoc, List.cons_append]
      exact readLeadingComments_comment hs rfl hread (ih (fun n hn => hc n (List.mem_cons_of_mem _ hn)) hw)
  | @block value ns s rest' hs _ _ ih =>
    cases hw with
    | block hv hw =>
      have hread := readComment_block hv (rest' ++ '#' :: rest)
      rw [String.ofList_toList] at hread
      simp only [List.append_assoc, List.cons_append]
      exact readLeadingComments_comment hs rfl hread (ih (fun n hn => hc n (List.mem_cons_of_mem _ hn)) hw)
  | text | superCall | bare | bracketed =>
    obtain ⟨value, multiline, hn⟩ := hc _ List.mem_cons_self
    cases hn

/-- the comments at the start of a document are those that its content begins with -/
theorem contentOf_leadingComments (s : List Char) :
    contentOf none s =
      (readLeadingComments s).bind fun p => (contentOf none p.2).map fun q => (p.1 ++ q.1, q.2) := by
  fun_induction readLeadingComments s with
  | case1 s hat f hread =>
    rw [contentOf_comment hat, hread]
    rfl
  | case2 s hat c r hread f hcomments ih =>
    rw [contentOf_comment hat, hread]
    simp only [Except.bind, ih, hcomments, Except.map]
  | case3 s hat c r hread ns r' hcomments ih =>
    rw [contentOf_comment hat, hread]
    simp only [Except.bind, ih, hcomments]
    cases contentOf none r' with
    | error f => rfl
    | ok q => rfl
  | case4 s hat =>
    rw [contentOf_congr (skipSpaces_skipSpaces s).symm]
    simp only [Except.bind]
    cases contentOf none (skipSpaces s) with
    | error f => rfl
    | ok q => rfl

/-- content does not begin with the number sign of a name -/
theorem readBlockName_of_contentOf {s after : List Char} {ns : List Node} (h : contentOf none s = .ok (ns, after)) :
    readBlockName s = .ok (none, s) := by
  unfold readBlockName
  split
  · rw [contentOf_eq] at h
    cases h
  · rfl

/-! ## Documents are read back -/

theorem readDocument_eq {s r r' after : List Char} {comments content : List Node} {name : Option String}
    (hcomments : readLeadingComments s = .ok (comments, r)) (hname : readBlockName r = .ok (name, r'))
    (hcontent : contentOf none r' = .ok (content, after)) : readDocument s = .ok ⟨name, comments ++ content⟩ := by
  unfold readDocument
  simp only [hcomments, hname, bind, Except.bind]
  unfold contentOf at hcontent
  cases hread : readContent none r' with
  | error f =>
    rw [hread] at hcontent
    contradiction
  | ok p =>
    obtain ⟨⟨ns, u⟩, hu⟩ := p
    rw [hread] at hcontent
    cases hcontent
    rfl

theorem contentOf_source {content : List Node} {t : List Char} (h : ContentText content t)
    (hw : WellFormed false content) : contentOf none t = .ok (content, []) := by
  have hread : contentOf none (t ++ []) = .ok (content, []) := contentOf_written h hw .source
  rwa [List.append_nil] at hread

/-- a text that can be read as content is a document without name -/
theorem readDocument_content {content : List Node} {t after : List Char} (hread : contentOf none t = .ok (content, after)) :
    readDocument t = .ok ⟨none, content⟩ := by
  rw [contentOf_leadingComments] at hread
  cases hcomments : readLeadingComments t with
  | error f =>
    rw [hcomments] at hread
    contradiction
  | ok p =>
    obtain ⟨comments, r⟩ := p
    simp only [hcomments, Except.bind] at hread
    cases hrest : contentOf none r with
    | error f =>
      rw [hrest] at hread
      contradiction
    | ok q =>
      obtain ⟨rest, after⟩ := q
      rw [hrest] at hread
      cases hread
      exact readDocument_eq hcomments (readBlockName_of_contentOf hrest) hrest

theorem readDocument_nameless {content : List Node} {t : List Char} (h : ContentText content t)
    (hw : WellFormed false content) : readDocument t = .ok ⟨none, content⟩ := readDocument_content (contentOf_source h hw)

theorem WellFormed.of_append {inBraces : Bool} {ns ns' : List Node} (h : WellFormed inBraces (ns ++ ns')) :
    WellFormed inBraces ns' := by
  induction ns with
  | nil => exact h
  | cons n ns ih =>
    cases h with
    | text h => exact ih h
    | line _ h => exact ih h
    | block _ h => exact ih h
    | superCall _ h => exact ih h
    | element _ _ _ h => exact ih h

theorem readDocument_named {name : String} {comments content : List Node} {t u : List Char} (hn : IsName .block name)
    (hc : ∀ n ∈ comments, IsComment n) (ht : ContentText comments t) (hp : Parted content u) (hu : ContentText content u)
    (hw : WellFormed false (comments ++ content)) :
    readDocument (t ++ '#' :: (name.toList ++ u)) = .ok ⟨some name, comments ++ content⟩ := by
  have hword : EndsWord u := by
    have hend := hu.endsWord hp .source
    rwa [List.append_nil] at hend
  have hname : readBlockName ('#' :: (name.toList ++ u)) = .ok (some name, u) := by
    simp only [readBlockName, readName_word hn hword.endsName]
  exact readDocument_eq (readLeadingComments_written ht hc hw _) hname (contentOf_source hu hw.of_append)

theorem exists_blockText {b : Block} (hb : BlockWellFormed b) : ∃ t, BlockText b t := by
  obtain ⟨t, ht⟩ := exists_contentText hb.content
  obtain ⟨name | name, content⟩ := b
  · exact ⟨_, .nameless ht⟩
  · have hparted : Parted content ('\n' :: t) := fun _ => ⟨'\n', t, rfl, rfl⟩
    have htext : BlockText ⟨some name, [] ++ content⟩ ([] ++ '#' :: (name.toList ++ '\n' :: t)) :=
      .named (by simp) (.done .nil) hparted ht
    exact ⟨_, htext⟩

/-- **Documents are read back.** A block that is well formed can be written, and however it is written, its text is read
back as that block. -/
theorem parse_written {b : Block} (hb : BlockWellFormed b) :
    (∃ source : String, BlockText b source.toList) ∧
      ∀ source : String, BlockText b source.toList → parse source = .ok b := by
  constructor
  · obtain ⟨t, ht⟩ := exists_blockText hb
    exact ⟨String.ofList t, by rwa [String.toList_ofList]⟩
  · intro source h
    have hread : readDocument source.toList = .ok b := by
      generalize source.toList = s at h
      cases h with
      | nameless ht => exact readDocument_nameless ht hb.content
      | named hc ht hp hu => exact readDocument_named (hb.name _ rfl) hc ht hp hu hb.content
    unfold parse
    simp only [hread]

/-- a comment and an element with names, attributes and content -/
def notice : Block :=
  ⟨some "Notice",
    [.comment " for all" false,
     .element ⟨false, some "p", some [some "Lead"], some ⟨none, [⟨"id", some "\"a'"⟩]⟩, some [.superCall ⟨none⟩]⟩]⟩

def noticeSource : String := "// for all\n#Notice p / Lead (id='\"a\\x27') \x7b super! \x7d"

theorem notice_wellFormed : BlockWellFormed notice where
  name name hname := by
    cases hname
    exact .inl ⟨'N', "otice".toList, rfl, by decide, List.all_eq_true.1 (by decide)⟩
  content := by
    have htag : IsName .tag "p" := .inl ⟨'p', [], rfl, by decide, by simp⟩
    have hlead : IsName .element "Lead" := .inl ⟨'L', "ead".toList, rfl, by decide, List.all_eq_true.1 (by decide)⟩
    have hid : IsName .attr "id" := .inl ⟨'i', ['d'], rfl, by decide, List.all_eq_true.1 (by decide)⟩
    have hline : OneLine " for all".toList := by simp [OneLine, isLineEnd]
    have hcall : WellFormed true [.superCall ⟨none⟩] := .superCall (by simp) .nil
    refine .line hline (.element ⟨by simp [headOf], ?_, ?_, ?_⟩ hcall (by simp) .nil)
    · intro tag h
      cases h
      exact htag
    · intro names h
      cases h
      exact ⟨["Lead"], by simp, by simpa using hlead, .inl rfl⟩
    · intro a h
      cases h
      exact ⟨by simp, by simpa using hid⟩

theorem notice_text : BlockText notice noticeSource.toList := by
  have hspace : Spaces [' '] := Spaces.nil.cons (by decide)
  have hline : ContentText [] ['\n'] := .done (Spaces.nil.cons (by decide))
  have hcomment : ContentText [.comment " for all" false] ([] ++ '/' :: '/' :: (" for all".toList ++ '\n' :: [])) :=
    .line .nil rfl hline
  have hspelled : SpellsAll '\'' ['"', 'a', '\''] (['"'] ++ (['a'] ++ (['\\', 'x', '2', '7'] ++ []))) :=
    .cons (.plain (by decide) (by decide) (by decide)) (.cons (.plain (by decide) (by decide) (by decide))
      (.cons (.hex rfl rfl rfl) .nil))
  have hvalue : IsLiteral "\"a'" "'\"a\\x27'".toList := ⟨'\'', _, .inl rfl, hspelled, rfl⟩
  have hentry : EntriesText [.setting ⟨"id", some "\"a'"⟩] _ := .last (.value .nil .nil hvalue .nil)
  have hattributes : AttributesText ⟨none, [⟨"id", some "\"a'"⟩]⟩ _ := .entries (.inl ⟨rfl, rfl⟩) .nil hentry
  have hnames : NameListText [some "Lead"] ([' '] ++ "Lead".toList) := .identified hspace .last
  have hhead : HeadText ⟨false, some "p", some [some "Lead"], some ⟨none, [⟨"id", some "\"a'"⟩]⟩⟩ _ :=
    ⟨_, _, .written hspace nofun hnames, .written hspace hattributes, rfl⟩
  have hcall : ContentText [.superCall ⟨none⟩] ([' '] ++ (superCallText ⟨none⟩ ++ [' '])) :=
    .superCall hspace nofun (.done hspace)
  have helement := ContentText.bracketed hspace hhead hspace hcall nofun (.done .nil)
  exact .named (by simp [IsComment]) hcomment (fun _ => ⟨' ', _, rfl, by decide⟩) helement

/-- the text of the notice is read back, its escape and its spaces included -/
theorem notice_is_read_back : BlockWellFormed notice ∧ parse noticeSource = .ok notice :=
  ⟨notice_wellFormed, (parse_written notice_wellFormed).2 _ notice_text⟩

end BlockTemplates.Source
