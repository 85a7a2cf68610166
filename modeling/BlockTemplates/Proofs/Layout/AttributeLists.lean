/-
Attribute lists in every layout. The attributes stand in their order, with the super call anywhere among them; gaps of any
kind may stand around names, values and commas, and spaces behind an equals sign. A value is a literal or stands bare, if
its text is of that kind; a bare value ends with its line or its entry, so that comments behind it begin on a later line.

Main statements: `readValue_layout` (values), `readEntry_layout` and `readEntries_layout` (one entry and all of them) and
`readAttributes_layout`.
-/
import BlockTemplates.Proofs.Layout.Literals

namespace BlockTemplates.Source

open Text Markup

/-! ## Layouts -/

/-- the attributes and the super call in the order in which they stand -/
def Arranges (a : Attributes) (es : List Entry) : Prop :=
  (a.superCall = none ∧ es = a.list.map .setting) ∨
    ∃ call before after, a.superCall = some call ∧ a.list = before ++ after ∧
      es = before.map .setting ++ .superCall call :: after.map .setting

/-- a value that can stand without quotes: its characters end no such value, and reading takes off none of them -/
structure StandsBare (v : List Char) : Prop where
  nonempty : v ≠ []
  trimmed : trim v = v
  inside : ∀ c ∈ v, c ≠ '\r' ∧ c ≠ '\n' ∧ c ≠ ',' ∧ c ≠ ')'
  start : ∀ c, v.head? = some c → isSpace c = false ∧ c ≠ '\'' ∧ c ≠ '"' ∧ c ≠ '`'

/-- blanks, but no line end -/
def LineBlanks (s : List Char) : Prop := ∀ c ∈ s, isBlank c = true ∧ c ≠ '\r' ∧ c ≠ '\n'

/-- a gap that, if there is one, begins with a line end -/
inductive LineGap : List Char → Prop
  | nil : LineGap []
  | line {c g} : isLineEnd c = true → Gap g → LineGap (c :: g)

/-- a value with the spaces before it and the gap behind it -/
inductive ValueLayout : String → List Char → Prop
  | quoted {value quote s ws g} : Spaces s → (quote = '\'' ∨ quote = '"') →
    LiteralItems quote value.toList ws → Gap g → ValueLayout value (s ++ quote :: (ws ++ quote :: g))
  | bare {value s b g} : Spaces s → StandsBare value.toList → LineBlanks b → LineGap g →
    ValueLayout value (s ++ (value.toList ++ (b ++ g)))
  | empty {s} : Spaces s → ValueLayout "" s

/-- an entry with the gaps around its parts, the one after it included -/
inductive EntryLayout : Entry → List Char → Prop
  | superCall {call g} : Gap g → EntryLayout (.superCall call) (superCallText call ++ g)
  | bare {name g} : Gap g → EntryLayout (.setting ⟨name, none⟩) (name.toList ++ g)
  | value {name value g v} : Gap g → ValueLayout value v →
    EntryLayout (.setting ⟨name, some value⟩) (name.toList ++ (g ++ '=' :: v))

/-- entries with the commas between them and the closing parenthesis -/
inductive EntriesLayout : List Entry → List Char → Prop
  | last {e t} : EntryLayout e t → EntriesLayout [e] (t ++ [')'])
  | cons {e es t g u} : EntryLayout e t → Gap g → EntriesLayout es u → EntriesLayout (e :: es) (t ++ ',' :: (g ++ u))

/-- a whole attribute list, from the opening to the closing parenthesis -/
inductive AttributesLayout : Attributes → List Char → Prop
  | empty {g} : Gap g → AttributesLayout {} ('(' :: (g ++ [')']))
  | entries {a es g u} : Arranges a es → Gap g → EntriesLayout es u → AttributesLayout a ('(' :: (g ++ u))

/-- names and targets are such -/
def EntryNamed : Entry → Prop
  | .superCall call => ∀ name, call.elementName = some name → IsName .element name
  | .setting a => IsName .attr a.name

structure AttributesNamed (a : Attributes) : Prop where
  target : ∀ call, a.superCall = some call → ∀ name, call.elementName = some name → IsName .element name
  names : ∀ attr ∈ a.list, IsName .attr attr.name

/-! ## Ends -/

theorem endsWord_of_isSpace {c : Char} (h : isSpace c = true) : endsWord c = true := by
  have hall : ∀ n < 33, endsWord (Char.ofNat n) = true := by decide
  have hlt : c.toNat < 33 := Nat.lt_succ_of_le (UInt32.le_iff_toNat_le.1 (Char.le_def.1 (of_decide_eq_true h)))
  rw [← Char.ofNat_toNat c]
  exact hall c.toNat hlt

theorem Gap.endsWord {g rest : List Char} (hg : Gap g) (hr : EndsWord rest) : EndsWord (g ++ rest) := by
  cases hg with
  | nil => exact hr
  | space hc _ => exact endsWord_cons (endsWord_of_isSpace hc)
  | line _ _ _ => exact endsWord_cons (by decide)
  | block _ _ => exact endsWord_cons (by decide)

/-- the text begins with a comma or a closing parenthesis -/
def EndsEntry (s : List Char) : Prop := ∃ c r, s = c :: r ∧ (c = ',' ∨ c = ')')

theorem EndsEntry.endsWord {s : List Char} (h : EndsEntry s) : EndsWord s := by
  obtain ⟨c, r, rfl, rfl | rfl⟩ := h
  · exact endsWord_cons (by decide)
  · exact endsWord_cons (by decide)

theorem endsGap_cons {c : Char} {s : List Char} (hc : isSpace c = false) (h : c ≠ '/') : EndsGap (c :: s) :=
  ⟨endsSpaces_cons hc, by simpa using h⟩

theorem EndsEntry.endsGap {s : List Char} (h : EndsEntry s) : EndsGap s := by
  obtain ⟨c, r, rfl, rfl | rfl⟩ := h
  · exact endsGap_cons (by decide) (by decide)
  · exact endsGap_cons (by decide) (by decide)

/-! ## Values -/

theorem trimStart_of_trim {v : List Char} (h : trim v = v) : trimStart v = v := by
  have hsub : v.Sublist (trimStart v) := by
    have hend := trimEnd_sublist (trimStart v)
    rwa [← trim, h] at hend
  exact (trimStart_sublist v).eq_of_length_le hsub.length_le

theorem trimEnd_of_trim {v : List Char} (h : trim v = v) : trimEnd v = v := by
  rwa [trim, trimStart_of_trim h] at h

theorem trimEnd_append {v b : List Char} (hb : ∀ c ∈ b, isBlank c = true) : trimEnd (v ++ b) = trimEnd v := by
  unfold trimEnd
  rw [List.reverse_append, List.dropWhile_append_of_pos fun c hc => hb c (List.mem_reverse.1 hc)]

/-- blanks behind a trimmed text are what trimming takes off -/
theorem trim_append {v b : List Char} (hne : v ≠ []) (h : trim v = v) (hb : ∀ c ∈ b, isBlank c = true) :
    trim (v ++ b) = v := by
  have hstart : trimStart (v ++ b) = v ++ b := by
    have hv := trimStart_of_trim h
    cases v with
    | nil => contradiction
    | cons c v =>
      by_cases hc : isBlank c = true
      · have hlength := (trimStart_sublist v).length_le
        rw [trimStart, List.dropWhile_cons_of_pos hc] at hv
        rw [← trimStart] at hv
        rw [hv, List.length_cons] at hlength
        omega
      · rw [List.cons_append, trimStart, List.dropWhile_cons_of_neg hc]
  rw [trim, hstart, trimEnd_append hb, trimEnd_of_trim h]

theorem endsBareValue_iff {c : Char} : endsBareValue c = true ↔ c = '\r' ∨ c = '\n' ∨ c = ',' ∨ c = ')' := by
  simp [endsBareValue, isLineEnd, or_assoc]

theorem readBareValue_layout {v b rest : List Char} (hin : ∀ c ∈ v ++ b, endsBareValue c = false)
    (htrim : trim (v ++ b) = v) (hrest : ∃ c r, rest = c :: r ∧ endsBareValue c = true) :
    readBareValue (v ++ b ++ rest) = .ok (String.ofList v, rest) := by
  obtain ⟨c, r, rfl, hc⟩ := hrest
  have hinside : ∀ d ∈ v ++ b, (!endsBareValue d) = true := by
    intro d hd
    rw [hin d hd, Bool.not_false]
  have hend : ∀ d, (c :: r).head? = some d → (!endsBareValue d) = false :=
    forall_head?_cons (by rw [hc, Bool.not_true])
  unfold readBareValue
  rw [dropWhile_run hinside hend, takeWhile_run hinside hend, htrim]

theorem LineGap.gap {g : List Char} (h : LineGap g) : Gap g := by
  cases h with
  | nil => exact .nil
  | line hc hg => exact .space (isSpace_of_isLineEnd hc) hg

theorem EndsEntry.endsBareValue {s : List Char} (h : EndsEntry s) : ∃ c r, s = c :: r ∧ endsBareValue c = true := by
  obtain ⟨c, r, rfl, rfl | rfl⟩ := h
  · exact ⟨_, _, rfl, rfl⟩
  · exact ⟨_, _, rfl, rfl⟩

theorem LineGap.endsBareValue {g rest : List Char} (h : LineGap g) (hr : EndsEntry rest) :
    ∃ c r, g ++ rest = c :: r ∧ BlockTemplates.Source.endsBareValue c = true := by
  cases h with
  | nil => exact hr.endsBareValue
  | @line c g hc _ => exact ⟨c, g ++ rest, rfl, by simp [BlockTemplates.Source.endsBareValue, hc]⟩

/-- a value is read with the spaces before it; the gap behind it is left -/
theorem readValue_layout {value : String} {t rest : List Char} (h : ValueLayout value t) (hr : EndsEntry rest) :
    ∃ g, Gap g ∧ readValue (t ++ rest) = .ok (value, g ++ rest) := by
  cases h with
  | @quoted _ quote s ws g hs hquote hws hg =>
    refine ⟨g, hg, ?_⟩
    have hq : isQuote quote = true := by rcases hquote with rfl | rfl <;> rfl
    have hspace : isSpace quote = false := by rcases hquote with rfl | rfl <;> decide
    have hplain : quote ≠ '`' := by rcases hquote with rfl | rfl <;> decide
    have hread := readLiteral_items hq hws (g ++ rest)
    rw [if_neg hplain, String.ofList_toList] at hread
    unfold readValue
    rw [List.append_assoc, List.cons_append, List.append_assoc, skipSpaces_append_cons hs hspace]
    simp only [hq, if_true, List.cons_append, hread]
  | @bare _ s b g hs hv hb hg =>
    refine ⟨g, hg.gap, ?_⟩
    have hin : ∀ c ∈ value.toList ++ b, endsBareValue c = false := by
      intro c hc
      rw [Bool.eq_false_iff, ne_eq, endsBareValue_iff]
      rcases List.mem_append.1 hc with hc | hc
      · simpa only [not_or] using hv.inside c hc
      · obtain ⟨hblank, hcr, hlf⟩ := hb c hc
        rintro (rfl | rfl | rfl | rfl) <;> contradiction
    have htrim := trim_append hv.nonempty hv.trimmed fun c hc => (hb c hc).1
    have hread := readBareValue_layout hin htrim (hg.endsBareValue hr)
    rw [String.ofList_toList] at hread
    obtain ⟨c, v, hcv⟩ := List.exists_cons_of_ne_nil hv.nonempty
    obtain ⟨hspace, hquote⟩ := hv.start c (by rw [hcv]; rfl)
    have hq : isQuote c = false := by simp [isQuote, hquote]
    rw [hcv] at hread ⊢
    simp only [List.append_assoc, List.cons_append] at hread ⊢
    unfold readValue
    rw [skipSpaces_append_cons hs hspace]
    simp only [hq, Bool.false_eq_true, if_false, hread]
  | empty hs =>
    refine ⟨[], .nil, ?_⟩
    obtain ⟨c, r, rfl, hc⟩ := hr
    have hspace : isSpace c = false := by rcases hc with rfl | rfl <;> decide
    have hq : isQuote c = false := by rcases hc with rfl | rfl <;> decide
    have hend : endsBareValue c = true := by rcases hc with rfl | rfl <;> rfl
    have hread : readBareValue (c :: r) = .ok (String.ofList [], c :: r) :=
      readBareValue_layout (v := []) (b := []) (by simp) rfl ⟨c, r, rfl, hend⟩
    unfold readValue
    rw [skipSpaces_append_cons hs hspace]
    simp only [hq, Bool.false_eq_true, if_false, hread]
    rfl

/-! ## Entries -/

/-- an attribute begins with its name, which ends there -/
theorem EntryLayout.name {a : Attribute} {t rest : List Char} (h : EntryLayout (.setting a) t) (hr : EndsEntry rest) :
    ∃ u, t ++ rest = a.name.toList ++ u ∧ EndsWord u := by
  cases h with
  | @bare name g hg => exact ⟨g ++ rest, List.append_assoc .., hg.endsWord hr.endsWord⟩
  | @value name value g v hg _ =>
    have hequals : EndsWord ('=' :: v ++ rest) := endsWord_cons (by decide)
    exact ⟨g ++ ('=' :: v ++ rest), by simp only [List.append_assoc], hg.endsWord hequals⟩

theorem readAttribute_layout {a : Attribute} {t rest : List Char} (h : EntryLayout (.setting a) t)
    (hn : IsName .attr a.name) (hr : EndsEntry rest) : readAttribute (t ++ rest) = .ok (a, rest) := by
  obtain ⟨u, hu, hend⟩ := h.name hr
  have hname := readName_word hn hend.endsName
  rw [← hu] at hname
  unfold readAttribute
  rw [hname]
  cases h with
  | @bare name g hg =>
    rw [List.append_assoc, List.append_cancel_left_eq] at hu
    simp only [← hu, skipGap_append hg hr.endsGap, bind, Except.bind]
    obtain ⟨c, r, rfl, rfl | rfl⟩ := hr
    · rfl
    · rfl
  | @value name value g v hg hv =>
    obtain ⟨g', hg', hvalue⟩ := readValue_layout hv hr
    have hgap : skipGap (g ++ '=' :: (v ++ rest)) = .ok ('=' :: (v ++ rest)) :=
      skipGap_append hg (endsGap_cons (by decide) (by decide))
    simp only [List.append_assoc, List.cons_append, List.append_cancel_left_eq] at hu
    simp only [← hu, hgap, bind, Except.bind, hvalue, skipGap_append hg' hr.endsGap]
    rfl

theorem readEntry_layout {allowed : Bool} {e : Entry} {t rest : List Char} (h : EntryLayout e t) (hn : EntryNamed e)
    (ha : ∀ call, e = .superCall call → allowed = true) (hr : EndsEntry rest) :
    readEntry allowed (t ++ rest) = .ok (e, rest) := by
  unfold readEntry
  cases e with
  | superCall call =>
    cases h with
    | @superCall call g hg =>
      rw [ha call rfl, if_pos rfl, List.append_assoc, readSuperCall_word hn]
      simp only [skipGap_append hg hr.endsGap, bind, Except.bind]
      rfl
  | setting a =>
    have hcall : (if allowed then readSuperCall (t ++ rest) else none) = none := by
      obtain ⟨u, hu, hend⟩ := h.name hr
      rw [hu, readSuperCall_name hn hend, ite_self]
    rw [hcall]
    simp only [readAttribute_layout h hn hr, bind, Except.bind]
    rfl

/-! ## Lists -/

/-- at most one super call stands among the entries, and none if none is allowed -/
def Admits : Bool → List Entry → Prop
  | _, [] => True
  | allowed, .superCall _ :: es => allowed = true ∧ Admits false es
  | allowed, .setting _ :: es => Admits allowed es

def Entry.isSuperCall : Entry → Bool
  | .superCall _ => true
  | .setting _ => false

theorem readEntries_eq (allowed : Bool) (s : List Char) :
    readEntries allowed s =
      match readEntry allowed s with
      | .error f => .error f
      | .ok (e, ')' :: r) => .ok ([e], r)
      | .ok (e, ',' :: r) =>
        match skipGap r with
        | .error f => .error f
        | .ok r =>
          match readEntries (allowed && !e.isSuperCall) r with
          | .error f => .error f
          | .ok (es, r) => .ok (e :: es, r)
      | .ok (_, r) => .error ⟨.invalidAttributes, r⟩ := by
  rw [readEntries]
  split
  · rename_i h
    simp only [h]
  · rename_i h
    simp only [h]
  · rename_i h
    simp only [h]
    rename_i e _
    split
    · rename_i hg
      simp only [hg]
    · rename_i hg
      simp only [hg]
      cases e with
      | superCall call => rfl
      | setting a => rfl
  · rename_i h
    simp only [h]

theorem Admits.head {allowed : Bool} {e : Entry} {es : List Entry} (h : Admits allowed (e :: es)) :
    (∀ call, e = .superCall call → allowed = true) ∧ Admits (allowed && !e.isSuperCall) es := by
  cases e with
  | superCall call =>
    obtain ⟨rfl, hes⟩ := h
    exact ⟨fun _ _ => rfl, hes⟩
  | setting a =>
    refine ⟨nofun, ?_⟩
    rw [Entry.isSuperCall, Bool.not_false, Bool.and_true]
    exact h

theorem endsGap_of_isNameChar {c : Char} {s : List Char} (h : isNameChar c = true) : EndsGap (c :: s) := by
  have hword : endsWord c = false := by simp [endsWord, h]
  refine endsGap_cons ?_ ?_
  · rw [Bool.eq_false_iff]
    intro hspace
    rw [endsWord_of_isSpace hspace] at hword
    contradiction
  · rintro rfl
    exact absurd hword (by decide)

theorem IsName.start {k : NameKind} {name : String} (h : IsName k name) :
    ∃ c cs, name.toList = c :: cs ∧ isNameChar c = true := by
  obtain ⟨c, cs, hs, hc⟩ := h.head
  exact ⟨c, cs, hs, isNameChar_of_isFirst hc⟩

theorem superCallText_start (call : SuperCall) : ∃ cs, superCallText call = 's' :: cs := by
  unfold superCallText
  split
  · exact ⟨_, rfl⟩
  · exact ⟨_, rfl⟩

/-- an entry begins with a name or the word of a super call -/
theorem EntryLayout.start {e : Entry} {t : List Char} (h : EntryLayout e t) (hn : EntryNamed e) :
    ∃ c cs, t = c :: cs ∧ isNameChar c = true := by
  cases h with
  | @superCall call g _ =>
    obtain ⟨cs, hs⟩ := superCallText_start call
    exact ⟨'s', cs ++ g, by rw [hs]; rfl, by decide⟩
  | @bare name g _ =>
    obtain ⟨c, cs, hs, hc⟩ := IsName.start hn
    exact ⟨c, cs ++ g, by rw [hs]; rfl, hc⟩
  | @value name value g v _ _ =>
    obtain ⟨c, cs, hs, hc⟩ := IsName.start hn
    exact ⟨c, _, by rw [hs]; rfl, hc⟩

theorem EntriesLayout.start {es : List Entry} {t : List Char} (h : EntriesLayout es t) (hn : ∀ e ∈ es, EntryNamed e) :
    ∃ c cs, t = c :: cs ∧ isNameChar c = true := by
  cases h with
  | @last e t he =>
    obtain ⟨c, cs, rfl, hc⟩ := he.start (hn _ List.mem_cons_self)
    exact ⟨c, _, rfl, hc⟩
  | @cons e es t g u he _ _ =>
    obtain ⟨c, cs, rfl, hc⟩ := he.start (hn _ List.mem_cons_self)
    exact ⟨c, _, rfl, hc⟩

theorem EntriesLayout.endsGap {es : List Entry} {t : List Char} (h : EntriesLayout es t) (hn : ∀ e ∈ es, EntryNamed e)
    (rest : List Char) : EndsGap (t ++ rest) := by
  obtain ⟨c, cs, rfl, hc⟩ := h.start hn
  exact endsGap_of_isNameChar hc

theorem readEntries_layout {allowed : Bool} {es : List Entry} {t : List Char} (h : EntriesLayout es t)
    (hn : ∀ e ∈ es, EntryNamed e) (ha : Admits allowed es) (rest : List Char) :
    readEntries allowed (t ++ rest) = .ok (es, rest) := by
  induction h generalizing allowed with
  | @last e t he =>
    have hentry : readEntry allowed (t ++ ')' :: rest) = .ok (e, ')' :: rest) :=
      readEntry_layout he (hn e List.mem_cons_self) ha.head.1 ⟨_, _, rfl, .inr rfl⟩
    rw [readEntries_eq, List.append_assoc, List.singleton_append]
    simp only [hentry]
  | @cons e es t g u he hg hes ih =>
    have hn' : ∀ e ∈ es, EntryNamed e := fun e' he' => hn e' (List.mem_cons_of_mem _ he')
    have hentry : readEntry allowed (t ++ ',' :: (g ++ (u ++ rest))) = .ok (e, ',' :: (g ++ (u ++ rest))) :=
      readEntry_layout he (hn e List.mem_cons_self) ha.head.1 ⟨_, _, rfl, .inl rfl⟩
    have hgap : skipGap (g ++ (u ++ rest)) = .ok (u ++ rest) := skipGap_append hg (hes.endsGap hn' rest)
    rw [readEntries_eq]
    simp only [List.append_assoc, List.cons_append, hentry, hgap, ih hn' ha.head.2]

/-! ## Whole attribute lists -/

theorem Arranges.admits {a : Attributes} {es : List Entry} (h : Arranges a es) : Admits true es := by
  have hsettings (allowed : Bool) (as : List Attribute) : Admits allowed (as.map .setting) := by
    induction as with
    | nil => trivial
    | cons a as ih => exact ih
  rcases h with ⟨-, rfl⟩ | ⟨call, before, after, -, -, rfl⟩
  · exact hsettings true _
  · induction before with
    | nil => exact ⟨rfl, hsettings false _⟩
    | cons a as ih => exact ih

theorem Arranges.attributesOfEntries {a : Attributes} {es : List Entry} (h : Arranges a es) :
    attributesOfEntries es = a := by
  obtain ⟨call, list⟩ := a
  unfold BlockTemplates.Source.attributesOfEntries
  rcases h with ⟨rfl, rfl⟩ | ⟨call, before, after, rfl, rfl, rfl⟩
  · simp [List.findSome?_map, List.filterMap_map, Function.comp_def]
  · have hbefore : before.findSome? (fun _ => (none : Option SuperCall)) = none :=
      List.findSome?_eq_none_iff.2 fun _ _ => rfl
    simp [List.findSome?_append, List.findSome?_map, List.filterMap_map, Function.comp_def, hbefore]

theorem Arranges.named {a : Attributes} {es : List Entry} (h : Arranges a es) (hn : AttributesNamed a) :
    ∀ e ∈ es, EntryNamed e := by
  have hsettings {as : List Attribute} (has : ∀ attr ∈ as, attr ∈ a.list) :
      ∀ e ∈ as.map Entry.setting, EntryNamed e := by
    intro e he
    obtain ⟨attr, hattr, rfl⟩ := List.mem_map.1 he
    exact hn.names attr (has attr hattr)
  rcases h with ⟨-, rfl⟩ | ⟨call, before, after, hcall, hlist, rfl⟩
  · exact hsettings fun attr h => h
  · intro e he
    rcases List.mem_append.1 he with he | he
    · exact hsettings (fun attr h => hlist ▸ List.mem_append_left _ h) e he
    · rcases List.mem_cons.1 he with rfl | he
      · exact hn.target call hcall
      · exact hsettings (fun attr h => hlist ▸ List.mem_append_right _ h) e he

/-- a list is read, whatever its layout, and what follows it is left over -/
theorem readAttributes_layout {a : Attributes} {t : List Char} (h : AttributesLayout a ('(' :: t))
    (hn : AttributesNamed a) (rest : List Char) : readAttributes (t ++ rest) = .ok (a, rest) := by
  unfold readAttributes
  cases h with
  | @empty g hg =>
    have hgap : skipGap (g ++ ')' :: rest) = .ok (')' :: rest) := skipGap_append hg (endsGap_cons (by decide) (by decide))
    simp only [List.append_assoc, List.singleton_append, hgap, bind, Except.bind]
    rfl
  | @entries _ es g u ha hg hes =>
    have hnamed := ha.named hn
    have hgap : skipGap (g ++ (u ++ rest)) = .ok (u ++ rest) := skipGap_append hg (hes.endsGap hnamed rest)
    have hentries := readEntries_layout hes hnamed ha.admits rest
    obtain ⟨c, cs, rfl, hc⟩ := hes.start hnamed
    simp only [List.append_assoc, hgap, bind, Except.bind]
    split
    · rename_i heq
      obtain ⟨rfl, -⟩ := List.cons.inj heq
      exact absurd hc (by decide)
    · simp only [hentries]
      rw [ha.attributesOfEntries]
      rfl

end BlockTemplates.Source
