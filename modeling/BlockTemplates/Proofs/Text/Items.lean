/-
Texts between quotes. Each character is written as an item, and the items stand one after the other up to the quote that
closes. Where items can be told apart from each other and from the quote, so can texts, whatever follows them. Most ways
of quoting have items of three forms: the character itself, a letter behind a backslash, or the code point behind a
backslash and the letter u.

Main statements: `Items.unique`, `Items.unique_of_end` and `Escaping.Distinct.separable`.
-/

namespace BlockTemplates.Text

/-- characters written one after the other, each as the items tell -/
inductive Items (Item : Char → List Char → Prop) : List Char → List Char → Prop
  | nil : Items Item [] []
  | cons {c cs w ws} : Item c w → Items Item cs ws → Items Item (c :: cs) (w ++ ws)

/-- items show what they stand for and where they end, and none begins with the quote -/
structure Separable (Item : Char → List Char → Prop) (quote : Char) : Prop where
  unique : ∀ {c c' w w' r r'}, Item c w → Item c' w' → w ++ r = w' ++ r' → c = c' ∧ r = r'
  ne_quote : ∀ {c w r r'}, Item c w → w ++ r ≠ quote :: r'

section

variable {Item : Char → List Char → Prop} {quote : Char}

theorem items_flatMap {write : Char → List Char} (h : ∀ c, Item c (write c)) (cs : List Char) :
    Items Item cs (cs.flatMap write) := by
  induction cs with
  | nil => exact .nil
  | cons c cs ih => exact .cons (h c) ih

theorem Items.unique (hitems : Separable Item quote) {cs cs' ws ws' r r' : List Char} (h : Items Item cs ws)
    (h' : Items Item cs' ws') (heq : ws ++ quote :: r = ws' ++ quote :: r') : cs = cs' ∧ r = r' := by
  induction h generalizing cs' ws' with
  | nil =>
    cases h' with
    | nil => simpa using heq
    | cons hc' _ =>
      rw [List.append_assoc] at heq
      exact absurd heq.symm (hitems.ne_quote hc')
  | cons hc _ ih =>
    rw [List.append_assoc] at heq
    cases h' with
    | nil => exact absurd heq (hitems.ne_quote hc)
    | cons hc' hcs' =>
      rw [List.append_assoc] at heq
      obtain ⟨rfl, hrest⟩ := hitems.unique hc hc' heq
      obtain ⟨rfl, hr⟩ := ih hcs' hrest
      exact ⟨rfl, hr⟩

/-- the same without a quote, up to the end of the text, where no item is empty -/
theorem Items.unique_of_end (hunique : ∀ {c c' w w' r r'}, Item c w → Item c' w' → w ++ r = w' ++ r' → c = c' ∧ r = r')
    (hne : ∀ c, ¬ Item c []) {cs cs' ws ws' : List Char} (h : Items Item cs ws) (h' : Items Item cs' ws')
    (heq : ws = ws') : cs = cs' := by
  induction h generalizing cs' ws' with
  | nil =>
    cases h' with
    | nil => rfl
    | cons hc' _ => exact absurd ((List.append_eq_nil_iff.1 heq.symm).1 ▸ hc') (hne _)
  | cons hc _ ih =>
    cases h' with
    | nil => exact absurd ((List.append_eq_nil_iff.1 heq).1 ▸ hc) (hne _)
    | cons hc' hcs' =>
      obtain ⟨rfl, hrest⟩ := hunique hc hc' heq
      rw [ih hcs' hrest]

end

/-! ## Backslashes -/

/-- how characters are written between quotes -/
structure Escaping where
  /-- the characters that stand for themselves -/
  plain : Char → Prop
  /-- the letters behind a backslash and what they stand for -/
  letters : List (Char × Char)
  /-- how a code point is written behind a backslash and the letter u -/
  code : Nat → List Char → Prop

/-- a character and how it is written -/
inductive Escaping.Item (e : Escaping) : Char → List Char → Prop
  | plain {c} : e.plain c → Item e c [c]
  | letter {l c} : (l, c) ∈ e.letters → Item e c ['\\', l]
  | code {c w} : e.code c.toNat w → Item e c ('\\' :: 'u' :: w)

/-- the three forms can be told apart, and what is of one form, too -/
structure Escaping.Distinct (e : Escaping) (quote : Char) : Prop where
  ne_backslash : quote ≠ '\\'
  plain : ∀ {c}, e.plain c → c ≠ '\\' ∧ c ≠ quote
  letter : ∀ p ∈ e.letters, ∀ p' ∈ e.letters, p.1 = p'.1 → p.2 = p'.2 ∧ p.1 ≠ 'u'
  code : ∀ {n n' w w' r r'}, e.code n w → e.code n' w' → w ++ r = w' ++ r' → n = n' ∧ r = r'

section

variable {e : Escaping} {quote c c' : Char} {w w' r r' : List Char}

theorem Escaping.Distinct.unique (he : e.Distinct quote) (h : e.Item c w) (h' : e.Item c' w')
    (heq : w ++ r = w' ++ r') : c = c' ∧ r = r' := by
  cases h with
  | plain hc =>
    cases h' with
    | plain => simpa using heq
    | letter => simp [(he.plain hc).1] at heq
    | code => simp [(he.plain hc).1] at heq
  | letter hl =>
    cases h' with
    | plain hc' => simp [(he.plain hc').1.symm] at heq
    | letter hl' =>
      simp only [List.cons_append, List.nil_append, List.cons.injEq, true_and] at heq
      obtain ⟨rfl, hr⟩ := heq
      exact ⟨(he.letter _ hl _ hl' rfl).1, hr⟩
    | code => simp [(he.letter _ hl _ hl rfl).2] at heq
  | code hn =>
    cases h' with
    | plain hc' => simp [(he.plain hc').1.symm] at heq
    | letter hl' => simp [(he.letter _ hl' _ hl' rfl).2.symm] at heq
    | code hn' =>
      simp only [List.cons_append, List.cons.injEq, true_and] at heq
      obtain ⟨hcode, hr⟩ := he.code hn hn' heq
      exact ⟨Char.toNat_inj.1 hcode, hr⟩

theorem Escaping.Distinct.separable (he : e.Distinct quote) : Separable e.Item quote where
  unique := he.unique
  ne_quote h := by
    cases h with
    | plain hc => simp [(he.plain hc).2]
    | letter => simp [he.ne_backslash.symm]
    | code => simp [he.ne_backslash.symm]

end

end BlockTemplates.Text
