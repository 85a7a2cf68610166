/-
Attribute lists as they are written. The attributes stand in their order, with the super call anywhere among them; gaps of
any kind may stand around names, values and commas, and spaces between an equals sign and its value. All values are quoted,
so this layout needs no condition on them.

Main statements: `readAttributes_written` (a list is read back), `exists_attributesText` (every list can be written) and
`attributes_in_every_layout`.
-/
import BlockTemplates.Proofs.Layout.AttributeLists

namespace BlockTemplates.Source

open Markup

/-! ## What is written -/

/-- an entry with the gaps around its parts, the one after it included -/
inductive EntryText : Entry → List Char → Prop
  | superCall {call g} : Gap g → EntryText (.superCall call) (superCallText call ++ g)
  | bare {name g} : Gap g → EntryText (.setting ⟨name, none⟩) (name.toList ++ g)
  | value {name value g s l g'} : Gap g → Spaces s → IsLiteral value l → Gap g' →
    EntryText (.setting ⟨name, some value⟩) (name.toList ++ (g ++ '=' :: (s ++ (l ++ g'))))

/-- entries with the commas between them and the closing parenthesis -/
inductive EntriesText : List Entry → List Char → Prop
  | last {e t} : EntryText e t → EntriesText [e] (t ++ [')'])
  | cons {e es t g u} : EntryText e t → Gap g → EntriesText es u → EntriesText (e :: es) (t ++ ',' :: (g ++ u))

/-- a whole attribute list, from the opening to the closing parenthesis -/
inductive AttributesText : Attributes → List Char → Prop
  | empty {g} : Gap g → AttributesText {} ('(' :: (g ++ [')']))
  | entries {a es g u} : Arranges a es → Gap g → EntriesText es u → AttributesText a ('(' :: (g ++ u))

/-! ## Literals only -/

theorem IsLiteral.layout {value : String} {s l g : List Char} (hs : Spaces s) (h : IsLiteral value l) (hg : Gap g) :
    ValueLayout value (s ++ (l ++ g)) := by
  obtain ⟨quote, ws, hq, hws, rfl⟩ := h
  rw [List.cons_append, List.append_assoc, List.singleton_append]
  exact .quoted hs hq (items_iff_spellsAll.2 hws) hg

theorem EntryText.layout {e : Entry} {t : List Char} (h : EntryText e t) : EntryLayout e t := by
  cases h with
  | superCall hg => exact .superCall hg
  | bare hg => exact .bare hg
  | value hg hs hl hg' => exact .value hg (hl.layout hs hg')

theorem EntriesText.layout {es : List Entry} {t : List Char} (h : EntriesText es t) : EntriesLayout es t := by
  induction h with
  | last he => exact .last he.layout
  | cons he hg _ ih => exact .cons he.layout hg ih

theorem AttributesText.layout {a : Attributes} {t : List Char} (h : AttributesText a t) : AttributesLayout a t := by
  cases h with
  | empty hg => exact .empty hg
  | entries ha hg hes => exact .entries ha hg hes.layout

/-- a list is read back, with whatever follows it left over -/
theorem readAttributes_written {a : Attributes} {t : List Char} (h : AttributesText a ('(' :: t)) (hn : AttributesNamed a)
    (rest : List Char) : readAttributes (t ++ rest) = .ok (a, rest) := readAttributes_layout h.layout hn rest

/-! ## Every list can be written -/

theorem exists_entryText (e : Entry) : ∃ t, EntryText e t := by
  match e with
  | .superCall call => exact ⟨_, .superCall .nil⟩
  | .setting ⟨name, none⟩ => exact ⟨_, .bare .nil⟩
  | .setting ⟨name, some value⟩ =>
    obtain ⟨l, hl⟩ := exists_literal value
    exact ⟨_, .value .nil .nil hl .nil⟩

theorem exists_entriesText (e : Entry) (es : List Entry) : ∃ t, EntriesText (e :: es) t := by
  induction es generalizing e with
  | nil =>
    obtain ⟨t, ht⟩ := exists_entryText e
    exact ⟨_, .last ht⟩
  | cons e' es ih =>
    obtain ⟨t, ht⟩ := exists_entryText e
    obtain ⟨u, hu⟩ := ih e'
    exact ⟨_, .cons ht .nil hu⟩

/-- every list can be written -/
theorem exists_attributesText (a : Attributes) : ∃ t, AttributesText a ('(' :: t) := by
  obtain ⟨call | call, _ | ⟨attr, as⟩⟩ := a
  · exact ⟨_, .empty .nil⟩
  · obtain ⟨t, ht⟩ := exists_entriesText (.setting attr) (as.map .setting)
    exact ⟨_, .entries (.inl ⟨rfl, rfl⟩) .nil ht⟩
  · obtain ⟨t, ht⟩ := exists_entriesText (.superCall call) []
    exact ⟨_, .entries (.inr ⟨call, [], [], rfl, rfl, rfl⟩) .nil ht⟩
  · obtain ⟨t, ht⟩ := exists_entriesText (.superCall call) ((attr :: as).map .setting)
    exact ⟨_, .entries (.inr ⟨call, [], attr :: as, rfl, rfl, rfl⟩) .nil ht⟩

/-- **Attribute lists do not depend on their layout.** A list whose names are such can be written, and however it is laid
out, with the super call at any place, gaps around names, values and commas, and each value quoted or bare, it is read as
that list, and reading stops right behind the closing parenthesis. -/
theorem attributes_in_every_layout {a : Attributes} (hn : AttributesNamed a) :
    (∃ text, AttributesLayout a text) ∧
      ∀ text, AttributesLayout a text → ∀ rest, (expect '(' (text ++ rest)).bind readAttributes = .ok (a, rest) := by
  constructor
  · obtain ⟨t, ht⟩ := exists_attributesText a
    exact ⟨_, ht.layout⟩
  · intro text h rest
    obtain ⟨t, rfl⟩ : ∃ t, text = '(' :: t := by
      cases h with
      | empty => exact ⟨_, rfl⟩
      | entries => exact ⟨_, rfl⟩
    exact readAttributes_layout h hn rest

/-- an attribute of the name `super`, a bare value before a comment, a super call and an empty value -/
theorem mixedLayout_is_read :
    AttributesNamed ⟨some ⟨none⟩, [⟨"super", none⟩, ⟨"a", some "b c"⟩, ⟨"e", some ""⟩]⟩ ∧
      AttributesLayout ⟨some ⟨none⟩, [⟨"super", none⟩, ⟨"a", some "b c"⟩, ⟨"e", some ""⟩]⟩
        "(super, a= b c \n//d\n,super!,e= )".toList ∧
      (expect '(' "(super, a= b c \n//d\n,super!,e= )x".toList).bind readAttributes =
        .ok (⟨some ⟨none⟩, [⟨"super", none⟩, ⟨"a", some "b c"⟩, ⟨"e", some ""⟩]⟩, ['x']) := by
  have hsuper : IsName .attr "super" := .inl ⟨'s', "uper".toList, rfl, by decide, List.all_eq_true.1 (by decide)⟩
  have hnamed :
      AttributesNamed ⟨some ⟨none⟩, [⟨"super", none⟩, ⟨"a", some "b c"⟩, ⟨"e", some ""⟩]⟩ := by
    refine ⟨by simp, ?_⟩
    simp only [List.forall_mem_cons, List.not_mem_nil, false_imp_iff, implies_true, and_true]
    exact ⟨hsuper, .inl ⟨'a', [], rfl, by decide, by simp⟩, .inl ⟨'e', [], rfl, by decide, by simp⟩⟩
  have hspace : Spaces [' '] := Spaces.nil.cons (by decide)
  have hbare : StandsBare "b c".toList := ⟨by decide, by decide, by simp, by simp [isSpace]⟩
  have hblank : LineBlanks [' '] := by simp [LineBlanks, Text.isBlank]
  have hline : OneLine "d".toList := by simp [OneLine, isLineEnd]
  have hcomment : LineGap ('\n' :: '/' :: '/' :: ("d".toList ++ ['\n'])) := .line rfl (.line hline rfl .nil)
  have hname : EntryLayout (.setting ⟨"super", none⟩) ("super".toList ++ []) := .bare .nil
  have hbc : EntryLayout (.setting ⟨"a", some "b c"⟩) _ := .value .nil (.bare hspace hbare hblank hcomment)
  have hcall : EntryLayout (.superCall ⟨none⟩) (superCallText ⟨none⟩ ++ []) := .superCall .nil
  have hempty : EntryLayout (.setting ⟨"e", some ""⟩) _ := .value .nil (.empty hspace)
  have hlayout : AttributesLayout ⟨some ⟨none⟩, [⟨"super", none⟩, ⟨"a", some "b c"⟩, ⟨"e", some ""⟩]⟩
      "(super, a= b c \n//d\n,super!,e= )".toList :=
    .entries (.inr ⟨⟨none⟩, [⟨"super", none⟩, ⟨"a", some "b c"⟩], [⟨"e", some ""⟩], rfl, rfl, rfl⟩) .nil
      (.cons hname (.of_spaces hspace) (.cons hbc .nil (.cons hcall .nil (.last hempty))))
  exact ⟨hnamed, hlayout, (attributes_in_every_layout hnamed).2 _ hlayout ['x']⟩

end BlockTemplates.Source
