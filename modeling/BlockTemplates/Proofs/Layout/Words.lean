/-
Names, super calls and literals as they are written. What a word is does not depend on what follows it; a reader takes a
word off the text that begins with it, provided that the text does not go on in a way that would make the word longer.

Main statements: `IsNameText.isPrefix_longest` (no name at the front goes on behind the one that is taken),
`readName_word`, `readSuperCall_word` and `readLiteral_word` (a word is read back), `exists_literal` (every text can be
written as a literal).
-/
import BlockTemplates.Proofs.Layout.Gaps
import BlockTemplates.Source.AttributeList

namespace BlockTemplates.Source

open Markup

/-! ## Names -/

/-- a first character and any number of others -/
def IsIdent (k : NameKind) (s : List Char) : Prop :=
  ∃ c cs, s = c :: cs ∧ k.isFirst c = true ∧ ∀ d ∈ cs, isNameChar d = true

/-- an identifier, or for some kinds two with a colon between them -/
def IsNameText (k : NameKind) (s : List Char) : Prop :=
  IsIdent k s ∨ k.namespaced = true ∧ ∃ ns n, IsIdent k ns ∧ IsIdent k n ∧ s = ns ++ ':' :: n

def IsName (k : NameKind) (name : String) : Prop := IsNameText k name.toList

/-- the text does not continue a name -/
def EndsName (s : List Char) : Prop := ∀ c, s.head? = some c → isNameChar c = false ∧ c ≠ ':'

theorem endsName_cons {c : Char} {s : List Char} (h : isNameChar c = false) (hc : c ≠ ':') : EndsName (c :: s) :=
  forall_head?_cons ⟨h, hc⟩

theorem ident_append {k : NameKind} {s rest : List Char} (h : IsIdent k s)
    (hr : ∀ c, rest.head? = some c → isNameChar c = false) : ident k (s ++ rest) = s := by
  obtain ⟨c, cs, rfl, hc, hcs⟩ := h
  simp only [List.cons_append, ident, hc, if_true, takeWhile_run hcs hr]

theorem IsIdent.ne_nil {k : NameKind} {s : List Char} (h : IsIdent k s) : s ≠ [] := by
  obtain ⟨c, cs, rfl, -⟩ := h
  simp

/-- a colon ends the first identifier, and the second one is as long as it can be -/
theorem longest_namespaced {k : NameKind} {ns s : List Char} (hk : k.namespaced = true) (hns : IsIdent k ns)
    (hs : ident k s ≠ []) : k.longest (ns ++ ':' :: s) = ns ++ ':' :: ident k s := by
  have hfirst : ident k (ns ++ ':' :: s) = ns := ident_append hns (forall_head?_cons (by decide))
  have hafter : afterNamespace k (':' :: s) = ':' :: ident k s := by
    rw [afterNamespace, if_neg (by simpa using hs)]
  unfold NameKind.longest
  dsimp only
  rw [hfirst, List.drop_left, hafter, if_pos (by simp [hk, hns.ne_nil])]

theorem longest_append {k : NameKind} {s rest : List Char} (h : IsNameText k s) (hr : EndsName rest) :
    k.longest (s ++ rest) = s := by
  rcases h with h | ⟨hk, ns, n, hns, hn, rfl⟩
  · unfold NameKind.longest
    rw [ident_append h fun c hc => (hr c hc).1]
    have hafter : afterNamespace k rest = [] := by
      unfold afterNamespace
      split
      · exact absurd rfl (hr ':' rfl).2
      · rfl
    simp only [List.drop_left, hafter, List.append_nil, ite_self]
  · have hsecond : ident k (n ++ rest) = n := ident_append hn fun c hc => (hr c hc).1
    rw [List.append_assoc, List.cons_append, longest_namespaced hk hns (by rw [hsecond]; exact hn.ne_nil), hsecond]

theorem IsIdent.isPrefix_ident {k : NameKind} {w s : List Char} (h : IsIdent k w) (hw : w <+: s) : w <+: ident k s := by
  obtain ⟨c, cs, rfl, hc, hcs⟩ := h
  obtain ⟨t, rfl⟩ := hw
  rw [List.cons_append, ident, if_pos hc, List.takeWhile_append_of_pos hcs]
  exact List.prefix_append (c :: cs) _

theorem ident_isPrefix_longest (k : NameKind) (s : List Char) : ident k s <+: k.longest s := by
  unfold NameKind.longest
  dsimp only
  split
  · exact List.prefix_append ..
  · exact List.prefix_rfl

/-- every name at the front of a text is part of the one that is taken -/
theorem IsNameText.isPrefix_longest {k : NameKind} {w s : List Char} (h : IsNameText k w) (hw : w <+: s) :
    w <+: k.longest s := by
  rcases h with h | ⟨hk, ns, n, hns, hn, rfl⟩
  · exact (h.isPrefix_ident hw).trans (ident_isPrefix_longest k s)
  · obtain ⟨t, rfl⟩ := hw
    have hsecond : n <+: ident k (n ++ t) := hn.isPrefix_ident (List.prefix_append n t)
    have hne : ident k (n ++ t) ≠ [] := fun h => hn.ne_nil (List.prefix_nil.1 (h ▸ hsecond))
    rw [List.append_assoc, List.cons_append, longest_namespaced hk hns hne]
    exact (List.prefix_append_right_inj ns).2 (List.cons_prefix_cons.2 ⟨rfl, hsecond⟩)

theorem IsNameText.ne_nil {k : NameKind} {s : List Char} (h : IsNameText k s) : s ≠ [] := by
  rcases h with h | ⟨-, ns, n, -, -, rfl⟩
  · exact h.ne_nil
  · simp

theorem readName_word {k : NameKind} {name : String} {rest : List Char} (h : IsName k name) (hr : EndsName rest) :
    readName k (name.toList ++ rest) = some (name, rest) := by
  unfold readName
  rw [longest_append h hr]
  split
  · rename_i hnil
    exact absurd hnil (IsNameText.ne_nil h)
  · simp

/-- a name begins with a letter or an underscore -/
theorem IsName.head {k : NameKind} {name : String} (h : IsName k name) :
    ∃ c cs, name.toList = c :: cs ∧ k.isFirst c = true := by
  rcases h with ⟨c, cs, hs, hc, -⟩ | ⟨-, ns, n, ⟨c, cs, rfl, hc, -⟩, -, hs⟩
  · exact ⟨c, cs, hs, hc⟩
  · exact ⟨c, _, hs, hc⟩

theorem isNameChar_of_isFirst {k : NameKind} {c : Char} (h : k.isFirst c = true) : isNameChar c = true := by
  unfold NameKind.isFirst at h
  unfold isNameChar Char.isAlphanum
  rcases Bool.or_eq_true _ _ ▸ h with h | h
  · simp [h]
  · simp [eq_of_beq (Bool.and_eq_true _ _ ▸ h).2]

theorem readName_eq_none {k : NameKind} {s : List Char} (h : ∀ c, s.head? = some c → k.isFirst c = false) :
    readName k s = none := by
  have hident : ident k s = [] := by
    cases s with
    | nil => rfl
    | cons c s => simp [ident, h c rfl]
  unfold readName NameKind.longest
  simp [hident]

/-! ## Super calls -/

def superCallText (call : SuperCall) : List Char :=
  match call.elementName with
  | none => "super!".toList
  | some name => "super.".toList ++ name.toList ++ ['!']

theorem readSuperCall_word {call : SuperCall} (h : ∀ name, call.elementName = some name → IsName .element name)
    (rest : List Char) : readSuperCall (superCallText call ++ rest) = some (call, rest) := by
  obtain ⟨name | name⟩ := call
  · rfl
  · have hname : readName .element (name.toList ++ '!' :: rest) = some (name, '!' :: rest) :=
      readName_word (h name rfl) (endsName_cons (by decide) (by decide))
    have htext : superCallText ⟨some name⟩ ++ rest =
        's' :: 'u' :: 'p' :: 'e' :: 'r' :: '.' :: (name.toList ++ '!' :: rest) := by simp [superCallText]
    rw [htext]
    simp only [readSuperCall, hname]

theorem readSuperCall_eq_append {call : SuperCall} {s rest : List Char} (h : readSuperCall s = some (call, rest)) :
    s = superCallText call ++ rest := by
  unfold readSuperCall at h
  split at h
  · obtain ⟨rfl, rfl⟩ := Prod.mk.inj (Option.some.inj h)
    rfl
  · split at h
    · rename_i hname
      obtain ⟨rfl, rfl⟩ := Prod.mk.inj (Option.some.inj h)
      rw [(readName_eq_some hname).2.2]
      simp [superCallText]
    · contradiction
  · contradiction

/-- characters that end a word, and make no super call of it -/
def endsWord (c : Char) : Bool := !(isNameChar c || c == ':' || c == '!' || c == '.')

/-- the text does not continue a word -/
def EndsWord (s : List Char) : Prop := ∀ c, s.head? = some c → endsWord c = true

theorem endsWord_nil : EndsWord [] := by simp [EndsWord]

theorem endsWord_cons {c : Char} {s : List Char} (h : endsWord c = true) : EndsWord (c :: s) := forall_head?_cons h

theorem EndsWord.endsName {s : List Char} (h : EndsWord s) : EndsName s := by
  intro c hc
  have := h c hc
  simp only [endsWord, Bool.not_eq_true', Bool.or_eq_false_iff, beq_eq_false_iff_ne] at this
  exact ⟨this.1.1.1, this.1.1.2⟩

theorem IsName.chars {k : NameKind} {name : String} (h : IsName k name) :
    ∀ c ∈ name.toList, (isNameChar c || c == ':') = true := by
  have hident {s : List Char} (hs : IsIdent k s) : ∀ c ∈ s, (isNameChar c || c == ':') = true := by
    obtain ⟨c, cs, rfl, hc, hcs⟩ := hs
    intro d hd
    rcases List.mem_cons.1 hd with rfl | hd
    · rw [isNameChar_of_isFirst hc, Bool.true_or]
    · rw [hcs d hd, Bool.true_or]
  rcases h with h | ⟨-, ns, n, hns, hn, hs⟩
  · exact hident h
  · rw [hs]
    intro c hc
    rcases List.mem_append.1 hc with hc | hc
    · exact hident hns c hc
    · rcases List.mem_cons.1 hc with rfl | hc
      · rfl
      · exact hident hn c hc

/-- a name that ends is no super call, even if it is called so -/
theorem readSuperCall_name {k : NameKind} {name : String} {rest : List Char} (h : IsName k name) (hr : EndsWord rest) :
    readSuperCall (name.toList ++ rest) = none := by
  have hend : ∀ c, rest.head? = some c → (isNameChar c || c == ':') = false := by
    intro c hc
    obtain ⟨h₁, h₂⟩ := hr.endsName c hc
    simp [h₁, h₂]
  have hname := takeWhile_run h.chars hend
  -- the word in front of the mark is the whole name, so the mark would be what follows it
  have hcall {c : Char} {r : List Char} (hc : endsWord c = false) (hw : (isNameChar c || c == ':') = false)
      (hs : name.toList ++ rest = "super".toList ++ c :: r) : False := by
    have hsuper : ("super".toList ++ c :: r).takeWhile (fun c => isNameChar c || c == ':') = "super".toList :=
      takeWhile_run (List.all_eq_true.1 (by decide)) (forall_head?_cons hw)
    rw [hs, hsuper] at hname
    rw [← hname, List.append_cancel_left_eq] at hs
    rw [hs] at hr
    exact absurd (hr c rfl) (by simp [hc])
  unfold readSuperCall
  split
  · rename_i hs
    exact (hcall (by decide) (by decide) hs).elim
  · rename_i hs
    exact (hcall (by decide) (by decide) hs).elim
  · rfl

/-! ## Literals -/

/-- how a character can be written between quotes -/
inductive Spells (quote : Char) (c : Char) : List Char → Prop
  | plain : c ≠ quote → c ≠ '\\' → (isLineEnd c = true → quote = '`') → Spells quote c [c]
  | letter {e} : simpleEscape? e = some c → Spells quote c ['\\', e]
  | hex {ds n} : ds.length = 2 → hexNumber? ds = some n → charOfCode? n = some c → Spells quote c ('\\' :: 'x' :: ds)
  | unicode {ds n} : ds.length = 4 → hexNumber? ds = some n → charOfCode? n = some c →
    Spells quote c ('\\' :: 'u' :: ds)

/-- how a text can be written between quotes, character by character -/
inductive SpellsAll (quote : Char) : List Char → List Char → Prop
  | nil : SpellsAll quote [] []
  | cons {c cs w ws} : Spells quote c w → SpellsAll quote cs ws → SpellsAll quote (c :: cs) (w ++ ws)

/-- a literal in single or double quotes -/
def IsLiteral (value : String) (s : List Char) : Prop :=
  ∃ quote ws, (quote = '\'' ∨ quote = '"') ∧ SpellsAll quote value.toList ws ∧ s = quote :: (ws ++ [quote])

theorem readHex_append {count n : Nat} {ds rest : List Char} {c : Char} (hl : ds.length = count)
    (hn : hexNumber? ds = some n) (hc : charOfCode? n = some c) : readHex count (ds ++ rest) = some (c, rest) := by
  subst hl
  simp [readHex, hn, hc]

theorem readEscape_letter {e c : Char} (h : simpleEscape? e = some c) (literal rest : List Char) :
    readEscape literal (e :: rest) = .ok (c, rest) := by
  unfold readEscape
  split
  · contradiction
  · rename_i heq
    cases heq
    simp [simpleEscape?] at h
  · rename_i heq
    cases heq
    simp [simpleEscape?] at h
  · rename_i heq
    cases heq
    simp only [h]

theorem readChars_step {quote c : Char} {w : List Char} (hq : quote ≠ '\\') (h : Spells quote c w)
    (literal read rest : List Char) :
    readChars quote literal read (w ++ rest) = readChars quote literal (c :: read) rest := by
  have hescape {s r : List Char} (hr : readEscape literal s = .ok (c, r)) :
      readChars quote literal read ('\\' :: s) = readChars quote literal (c :: read) r := by
    rw [readChars, if_neg hq.symm, if_pos rfl]
    split
    · rename_i heq
      simp [hr] at heq
    · rename_i heq
      rw [hr] at heq
      cases heq
      rfl
  cases h with
  | plain hquote hback hend =>
    rw [List.singleton_append, readChars, if_neg hquote, if_neg hback, if_neg]
    rintro ⟨hc, hne⟩
    exact hne (hend hc)
  | letter he => exact hescape (readEscape_letter he literal rest)
  | @hex ds n hl hn hc =>
    have hread : readEscape literal ('x' :: (ds ++ rest)) = .ok (c, rest) := by
      simp only [readEscape, readHex_append hl hn hc]
    exact hescape hread
  | @unicode ds n hl hn hc =>
    have hread : readEscape literal ('u' :: (ds ++ rest)) = .ok (c, rest) := by
      simp only [readEscape, readHex_append hl hn hc]
    exact hescape hread

/-- what is spelled is decoded, whatever follows -/
theorem readChars_run {quote : Char} {cs ws : List Char} (hq : quote ≠ '\\') (h : SpellsAll quote cs ws)
    (literal read rest : List Char) :
    readChars quote literal read (ws ++ rest) = readChars quote literal (cs.reverse ++ read) rest := by
  induction h generalizing read with
  | nil => rfl
  | cons hc _ ih =>
    rw [List.append_assoc, readChars_step hq hc, ih]
    simp

theorem readChars_spelled {quote : Char} {cs ws : List Char} (hq : quote ≠ '\\') (h : SpellsAll quote cs ws)
    (literal read rest : List Char) :
    readChars quote literal read (ws ++ quote :: rest) = .ok (read.reverse ++ cs, rest) := by
  rw [readChars_run hq h, readChars, if_pos rfl]
  simp

theorem readLiteral_word {value : String} {s : List Char} (h : IsLiteral value s) (rest : List Char) :
    readLiteral (s ++ rest) = .ok (value, rest) := by
  obtain ⟨quote, ws, hq, hws, rfl⟩ := h
  have hback : quote ≠ '\\' := by rcases hq with rfl | rfl <;> decide
  have htick : quote ≠ '`' := by rcases hq with rfl | rfl <;> decide
  have hquote : isQuote quote = true := by rcases hq with rfl | rfl <;> rfl
  simp only [List.cons_append, List.append_assoc, readLiteral, hquote, if_true, readChars_spelled hback hws,
    if_neg htick, List.reverse_nil, List.nil_append]
  simp

/-- the shortest way to write a character between single quotes -/
def spelling (c : Char) : List Char :=
  if c = '\'' then "\\x27".toList
  else if c = '\\' then "\\\\".toList
  else if c = '\n' then "\\n".toList
  else if c = '\r' then "\\r".toList
  else [c]

theorem spells_spelling (c : Char) : Spells '\'' c (spelling c) := by
  unfold spelling
  split
  · rename_i h
    subst h
    exact .hex (n := 39) rfl rfl rfl
  split
  · rename_i h
    subst h
    exact .letter rfl
  split
  · rename_i h
    subst h
    exact .letter rfl
  split
  · rename_i h
    subst h
    exact .letter rfl
  · rename_i hquote hback hn hr
    exact .plain hquote hback fun h => by simp_all [isLineEnd]

theorem spellsAll_spelling (cs : List Char) : SpellsAll '\'' cs (cs.flatMap spelling) := by
  induction cs with
  | nil => exact .nil
  | cons c cs ih => exact .cons (spells_spelling c) ih

/-- every text can be written as a literal -/
theorem exists_literal (value : String) : ∃ s, IsLiteral value s :=
  ⟨_, '\'', _, .inl rfl, spellsAll_spelling value.toList, rfl⟩

end BlockTemplates.Source
