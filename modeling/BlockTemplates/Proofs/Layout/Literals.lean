/-
What a literal is. Between its quotes stand items: characters that stand for themselves, and escapes. A literal is read
if and only if items and then the quote follow its opening quote, and its value is what the items stand for. Where no
item begins and no quote stands, the literal is at fault: at its opening quote if it does not end, else at the backslash
of the escape.

Main statements: `item_or_fault` (a text begins with the quote, an item or a fault) and `literals_are_exact`.
-/
import BlockTemplates.Proofs.Layout.Words
import Mathlib.Algebra.Group.Nat.Defs
import Mathlib.Data.List.Induction

namespace BlockTemplates.Source

open Text

/-! ## Escapes -/

/-- the letters of escapes and the characters that they stand for -/
def escapeLetters : List (Char × Char) :=
  [('n', '\n'), ('r', '\r'), ('t', '\t'), ('b', '\x08'), ('f', '\x0c'), ('\\', '\\'), ('/', '/')]

/-- the digits to the base sixteen, by their values; the letters count in both cases -/
def IsHexDigit (d : Char) (v : Nat) : Prop :=
  "0123456789abcdef".toList[v]? = some d ∨ "0123456789ABCDEF".toList[v]? = some d

/-- the number that digits denote, the first of them counting most -/
inductive Denotes : List Char → Nat → Prop
  | nil : Denotes [] 0
  | snoc {ds d n v} : Denotes ds n → IsHexDigit d v → Denotes (ds ++ [d]) (16 * n + v)

/-- the code points in this range are no characters -/
def IsSurrogate (n : Nat) : Prop := 0xd800 ≤ n ∧ n ≤ 0xdfff

/-- two digits stand at the front -/
def BeginsHex (s : List Char) : Prop := ∃ ds n r, ds.length = 2 ∧ Denotes ds n ∧ s = ds ++ r

/-- the four digits of a character stand at the front -/
def BeginsUnicode (s : List Char) : Prop :=
  ∃ ds n r, ds.length = 4 ∧ Denotes ds n ∧ ¬ IsSurrogate n ∧ s = ds ++ r

/-- an escape can begin with the character -/
def StartsEscape (c : Char) : Prop := c = 'x' ∨ c = 'u' ∨ ∃ d, (c, d) ∈ escapeLetters

theorem simpleEscape?_eq_some {e c : Char} : simpleEscape? e = some c ↔ (e, c) ∈ escapeLetters := by
  unfold simpleEscape? escapeLetters
  split <;> simp_all [eq_comm]

instance {d : Char} {v : Nat} : Decidable (IsHexDigit d v) := inferInstanceAs (Decidable (_ ∨ _))

theorem IsHexDigit.lt {d : Char} {v : Nat} (h : IsHexDigit d v) : v < 16 := by
  rcases h with h | h
  all_goals exact (List.getElem?_eq_some_iff.1 h).1

theorem IsHexDigit.toNat_lt {d : Char} {v : Nat} (h : IsHexDigit d v) : d.toNat < 103 := by
  have hall : ∀ c ∈ "0123456789abcdef".toList ++ "0123456789ABCDEF".toList, c.toNat < 103 := by simp
  rcases h with h | h
  · exact hall d (List.mem_append_left _ (List.mem_of_getElem? h))
  · exact hall d (List.mem_append_right _ (List.mem_of_getElem? h))

theorem hexValue?_lt {d : Char} {v : Nat} (h : hexValue? d = some v) : d.toNat < 103 ∧ v < 16 := by
  have hle {a b : Char} (hab : a ≤ b) : a.toNat ≤ b.toNat := hab
  unfold hexValue? at h
  split at h
  · rename_i hr
    have h₁ : d.toNat ≤ 57 := hle hr.2
    have h₂ : d.toNat - 48 = v := Option.some.inj h
    omega
  · split at h
    · rename_i hr
      have h₁ : d.toNat ≤ 102 := hle hr.2
      have h₂ : d.toNat - 97 + 10 = v := Option.some.inj h
      omega
    · split at h
      · rename_i hr
        have h₁ : d.toNat ≤ 70 := hle hr.2
        have h₂ : d.toNat - 65 + 10 = v := Option.some.inj h
        omega
      · cases h

theorem hexValue?_eq_some {d : Char} {v : Nat} : hexValue? d = some v ↔ IsHexDigit d v := by
  -- all that can be a digit is checked one by one
  have hall : ∀ n < 103, ∀ v < 16, hexValue? (Char.ofNat n) = some v ↔ IsHexDigit (Char.ofNat n) v := by decide +kernel
  have hd := hall d.toNat
  rw [Char.ofNat_toNat] at hd
  constructor
  · intro h
    obtain ⟨hn, hv⟩ := hexValue?_lt h
    exact (hd hn v hv).1 h
  · intro h
    exact (hd h.toNat_lt v h.lt).2 h

theorem hexNumber?_concat (ds : List Char) (d : Char) :
    hexNumber? (ds ++ [d]) = (hexNumber? ds).bind fun n => (hexValue? d).map (16 * n + ·) := by
  unfold hexNumber?
  rw [List.foldlM_append]
  simp [bind, pure]

theorem hexNumber?_eq_some {ds : List Char} {n : Nat} : hexNumber? ds = some n ↔ Denotes ds n := by
  constructor
  · intro h
    induction ds using List.reverseRecOn generalizing n with
    | nil =>
      obtain rfl := Option.some.inj h
      exact .nil
    | append_singleton ds d ih =>
      rw [hexNumber?_concat] at h
      obtain ⟨m, hm, h⟩ := Option.bind_eq_some_iff.1 h
      obtain ⟨v, hv, rfl⟩ := Option.map_eq_some_iff.1 h
      exact .snoc (ih hm) (hexValue?_eq_some.1 hv)
  · intro h
    induction h with
    | nil => rfl
    | snoc _ hd ih => rw [hexNumber?_concat, ih, Option.bind_some, hexValue?_eq_some.2 hd, Option.map_some]

theorem Denotes.unique {ds : List Char} {n n' : Nat} (h : Denotes ds n) (h' : Denotes ds n') : n = n' :=
  Option.some.inj ((hexNumber?_eq_some.2 h).symm.trans (hexNumber?_eq_some.2 h'))

theorem Denotes.lt {ds : List Char} {n : Nat} (h : Denotes ds n) : n < 16 ^ ds.length := by
  induction h with
  | nil => simp
  | snoc _ hd ih =>
    have := hd.lt
    rw [List.length_append, List.length_singleton, Nat.pow_succ]
    omega

theorem charOfCode?_eq_some {n : Nat} {c : Char} (hn : n < 16 ^ 4) :
    charOfCode? n = some c ↔ ¬ IsSurrogate n ∧ c = Char.ofNat n := by
  unfold charOfCode? IsSurrogate
  split
  · rename_i hvalid
    simp only [Option.some.injEq, eq_comm (a := c)]
    refine ⟨fun h => ⟨?_, h⟩, And.right⟩
    rcases hvalid with h | h <;> omega
  · rename_i hvalid
    simp only [reduceCtorEq, false_iff]
    rintro ⟨h, -⟩
    exact hvalid (by unfold Nat.isValidChar; omega)

/-! ## Items -/

/-- a character between quotes and how it is written there -/
inductive LiteralItem (quote : Char) : Char → List Char → Prop
  | plain {c} : c ≠ quote → c ≠ '\\' → (quote ≠ '`' → c ≠ '\r' ∧ c ≠ '\n') → LiteralItem quote c [c]
  | letter {e c} : (e, c) ∈ escapeLetters → LiteralItem quote c ['\\', e]
  | hex {ds n} : ds.length = 2 → Denotes ds n → LiteralItem quote (Char.ofNat n) ('\\' :: 'x' :: ds)
  | unicode {ds n} : ds.length = 4 → Denotes ds n → ¬ IsSurrogate n →
    LiteralItem quote (Char.ofNat n) ('\\' :: 'u' :: ds)

/-- a run of characters, written one after the other -/
inductive LiteralItems (quote : Char) : List Char → List Char → Prop
  | nil : LiteralItems quote [] []
  | cons {c cs w ws} : LiteralItem quote c w → LiteralItems quote cs ws → LiteralItems quote (c :: cs) (w ++ ws)

section

variable {quote c : Char} {cs w ws : List Char}

theorem Denotes.lt_of_length {ds : List Char} {n : Nat} (h : Denotes ds n) (hl : ds.length ≤ 4) : n < 16 ^ 4 :=
  Nat.lt_of_lt_of_le h.lt (Nat.pow_le_pow_right (by decide) hl)

/-- no two digits denote a surrogate -/
theorem Denotes.not_surrogate {ds : List Char} {n : Nat} (h : Denotes ds n) (hl : ds.length = 2) :
    ¬ IsSurrogate n := by
  have := h.lt
  rw [hl] at this
  unfold IsSurrogate
  omega

theorem LiteralItem.spells (h : LiteralItem quote c w) : Spells quote c w := by
  cases h with
  | plain hquote hback hend =>
    refine .plain hquote hback fun hc => Decidable.byContradiction fun htick => ?_
    obtain ⟨hr, hn⟩ := hend htick
    simp [isLineEnd, hr, hn] at hc
  | letter he => exact .letter (simpleEscape?_eq_some.2 he)
  | hex hl hn =>
    refine .hex hl (hexNumber?_eq_some.2 hn) ?_
    exact (charOfCode?_eq_some (hn.lt_of_length (by omega))).2 ⟨hn.not_surrogate hl, rfl⟩
  | unicode hl hn hs =>
    refine .unicode hl (hexNumber?_eq_some.2 hn) ?_
    exact (charOfCode?_eq_some (hn.lt_of_length (by omega))).2 ⟨hs, rfl⟩

theorem Spells.item (h : Spells quote c w) : LiteralItem quote c w := by
  cases h with
  | plain hquote hback hend =>
    refine .plain hquote hback fun htick => ?_
    constructor
    all_goals
      rintro rfl
      exact htick (hend rfl)
  | letter he => exact .letter (simpleEscape?_eq_some.1 he)
  | hex hl hn hc =>
    rw [hexNumber?_eq_some] at hn
    obtain ⟨-, rfl⟩ := (charOfCode?_eq_some (hn.lt_of_length (by omega))).1 hc
    exact .hex hl hn
  | unicode hl hn hc =>
    rw [hexNumber?_eq_some] at hn
    obtain ⟨hs, rfl⟩ := (charOfCode?_eq_some (hn.lt_of_length (by omega))).1 hc
    exact .unicode hl hn hs

theorem items_iff_spellsAll : LiteralItems quote cs ws ↔ SpellsAll quote cs ws := by
  constructor
  · intro h
    induction h with
    | nil => exact .nil
    | cons hc _ ih => exact .cons hc.spells ih
  · intro h
    induction h with
    | nil => exact .nil
    | cons hc _ ih => exact .cons hc.item ih

end

/-! ## Faults -/

/-- what is wrong with a text between quotes that begins with no item and not with the quote -/
inductive LiteralFault (quote : Char) : List Char → ParseErrorKind → Prop
  | ended : LiteralFault quote [] .unterminatedString
  | endedInEscape : LiteralFault quote ['\\'] .unterminatedString
  | lineEnd {c s} : quote ≠ '`' → c = '\r' ∨ c = '\n' → LiteralFault quote (c :: s) .unterminatedString
  | hex {s} : ¬ BeginsHex s → LiteralFault quote ('\\' :: 'x' :: s) .malformedHexEscape
  | unicode {s} : ¬ BeginsUnicode s → LiteralFault quote ('\\' :: 'u' :: s) .malformedUnicodeEscape
  | unknown {c s} : ¬ StartsEscape c → LiteralFault quote ('\\' :: c :: s) (.unknownEscape c)

/-- a text between quotes begins with the quote, an item or a fault -/
theorem item_or_fault (quote : Char) (s : List Char) :
    (∃ r, s = quote :: r) ∨ (∃ c w r, LiteralItem quote c w ∧ s = w ++ r) ∨ ∃ kind, LiteralFault quote s kind := by
  cases s with
  | nil => exact .inr (.inr ⟨_, .ended⟩)
  | cons c s =>
    by_cases hquote : c = quote
    · exact .inl ⟨s, by rw [hquote]⟩
    right
    by_cases hback : c = '\\'
    · subst hback
      cases s with
      | nil => exact .inr ⟨_, .endedInEscape⟩
      | cons e s =>
        by_cases hstart : StartsEscape e
        · rcases hstart with rfl | rfl | ⟨d, hd⟩
          · by_cases hds : BeginsHex s
            · obtain ⟨ds, n, r, hl, hn, rfl⟩ := hds
              exact .inl ⟨_, _, r, .hex hl hn, rfl⟩
            · exact .inr ⟨_, .hex hds⟩
          · by_cases hds : BeginsUnicode s
            · obtain ⟨ds, n, r, hl, hn, hs, rfl⟩ := hds
              exact .inl ⟨_, _, r, .unicode hl hn hs, rfl⟩
            · exact .inr ⟨_, .unicode hds⟩
          · exact .inl ⟨d, _, s, .letter hd, rfl⟩
        · exact .inr ⟨_, .unknown hstart⟩
    · by_cases hend : quote ≠ '`' ∧ (c = '\r' ∨ c = '\n')
      · exact .inr ⟨_, .lineEnd hend.1 hend.2⟩
      · refine .inl ⟨c, [c], s, .plain hquote hback fun htick => ?_, rfl⟩
        exact not_or.1 fun h => hend ⟨htick, h⟩

/-- items, and then the quote or a fault -/
theorem items_then (quote : Char) (s : List Char) :
    ∃ cs ws u, LiteralItems quote cs ws ∧ s = ws ++ u ∧
      ((∃ r, u = quote :: r) ∨ ∃ kind, LiteralFault quote u kind) := by
  generalize hlength : s.length = n
  induction n using Nat.strongRecOn generalizing s with
  | ind n ih =>
    rcases item_or_fault quote s with h | ⟨c, w, r, hc, rfl⟩ | h
    · exact ⟨[], [], s, .nil, rfl, .inl h⟩
    · have hw : w ≠ [] := by cases hc <;> simp
      have hr : IsRest r (w ++ r) := .append hw
      obtain ⟨cs, ws, u, hcs, rfl, hu⟩ := ih r.length (hlength ▸ hr.2) r rfl
      exact ⟨c :: cs, w ++ ws, u, .cons hc hcs, (List.append_assoc ..).symm, hu⟩
    · exact ⟨[], [], s, .nil, rfl, .inr h⟩

/-! ## Reading -/

/-- where a fault of a literal lies: at its opening quote if it does not end, else at the backslash -/
def ParseErrorKind.inLiteral (kind : ParseErrorKind) (literal u : List Char) : Fault :=
  ⟨kind, if kind = .unterminatedString then literal else u⟩

section

variable {quote : Char} {literal s u cs ws r : List Char} {kind : ParseErrorKind}

theorem readHex_eq_none {count : Nat}
    (h : ∀ ds n r, ds.length = count → Denotes ds n → (charOfCode? n).isSome → s ≠ ds ++ r) :
    readHex count s = none := by
  unfold readHex
  split
  · rename_i hl
    rw [Option.map_eq_none_iff, Option.bind_eq_none_iff]
    intro n hn
    by_contra hc
    have hs := (List.take_append_drop count s).symm
    exact h _ n _ hl (hexNumber?_eq_some.1 hn) (Option.isSome_iff_ne_none.2 hc) hs
  · rfl

theorem readEscape_hex_fault (h : ¬ BeginsHex s) :
    readEscape literal ('x' :: s) = .error ⟨.malformedHexEscape, '\\' :: 'x' :: s⟩ := by
  have hnone : readHex 2 s = none := readHex_eq_none fun ds n r hl hn _ hs => h ⟨ds, n, r, hl, hn, hs⟩
  simp only [readEscape, hnone]

theorem readEscape_unicode_fault (h : ¬ BeginsUnicode s) :
    readEscape literal ('u' :: s) = .error ⟨.malformedUnicodeEscape, '\\' :: 'u' :: s⟩ := by
  have hnone : readHex 4 s = none := by
    refine readHex_eq_none fun ds n r hl hn hc hs => h ⟨ds, n, r, hl, hn, ?_, hs⟩
    obtain ⟨c, hc⟩ := Option.isSome_iff_exists.1 hc
    exact ((charOfCode?_eq_some (hn.lt_of_length (by omega))).1 hc).1
  simp only [readEscape, hnone]

theorem readEscape_unknown {c : Char} (h : ¬ StartsEscape c) :
    readEscape literal (c :: s) = .error ⟨.unknownEscape c, '\\' :: c :: s⟩ := by
  have hnone : simpleEscape? c = none := by
    refine Option.eq_none_iff_forall_ne_some.2 fun d hd => ?_
    exact h (.inr (.inr ⟨d, simpleEscape?_eq_some.1 hd⟩))
  unfold readEscape
  split
  · contradiction
  · rename_i heq
    exact absurd (.inl (List.cons.inj heq).1) h
  · rename_i heq
    exact absurd (.inr (.inl (List.cons.inj heq).1)) h
  · rename_i heq
    obtain ⟨rfl, rfl⟩ := List.cons.inj heq
    simp only [hnone]

theorem readChars_escape_error {f : Fault} (hq : quote ≠ '\\') (h : readEscape literal s = .error f)
    (read : List Char) : readChars quote literal read ('\\' :: s) = .error f := by
  rw [readChars, if_neg hq.symm, if_pos rfl]
  split
  · rename_i heq
    rw [h] at heq
    obtain rfl := Except.error.inj heq
    rfl
  · rename_i heq
    rw [h] at heq
    contradiction

theorem ne_backslash_of_isQuote (h : isQuote quote = true) : quote ≠ '\\' := by
  rintro rfl
  contradiction

theorem readChars_fault (hq : isQuote quote = true) (hu : LiteralFault quote u kind) (read : List Char) :
    readChars quote literal read u = .error (kind.inLiteral literal u) := by
  have hback := ne_backslash_of_isQuote hq
  cases hu with
  | ended => rw [readChars]; rfl
  | endedInEscape => exact readChars_escape_error hback rfl read
  | lineEnd htick hc =>
    rename_i c s
    have hquote : c ≠ quote := by
      rintro rfl
      rcases hc with rfl | rfl <;> contradiction
    have hc' : c ≠ '\\' ∧ isLineEnd c = true := by rcases hc with rfl | rfl <;> decide
    rw [readChars, if_neg hquote, if_neg hc'.1, if_pos ⟨hc'.2, htick⟩]
    rfl
  | hex h => exact readChars_escape_error hback (readEscape_hex_fault h) read
  | unicode h => exact readChars_escape_error hback (readEscape_unicode_fault h) read
  | unknown h => exact readChars_escape_error hback (readEscape_unknown h) read

/-- what stands between the quotes is decoded, in backticks also brought into the normal form -/
theorem readLiteral_items (hq : isQuote quote = true) (h : LiteralItems quote cs ws) (r : List Char) :
    readLiteral (quote :: (ws ++ quote :: r)) =
      .ok (String.ofList (if quote = '`' then normalize cs else cs), r) := by
  have hread := readChars_spelled (ne_backslash_of_isQuote hq) (items_iff_spellsAll.1 h)
  simp only [readLiteral, hq, if_true, hread, List.reverse_nil, List.nil_append]

theorem readLiteral_fault (hq : isQuote quote = true) (h : LiteralItems quote cs ws) (hu : LiteralFault quote u kind) :
    readLiteral (quote :: (ws ++ u)) = .error (kind.inLiteral (quote :: (ws ++ u)) u) := by
  have hread := readChars_run (ne_backslash_of_isQuote hq) (items_iff_spellsAll.1 h)
  simp only [readLiteral, hq, if_true, hread, readChars_fault hq hu]

/-- a literal is read in one way or has one fault -/
theorem readLiteral_cases (hq : isQuote quote = true) (s : List Char) :
    ∃ cs ws u, LiteralItems quote cs ws ∧ s = ws ++ u ∧
      ((∃ r, u = quote :: r ∧
          readLiteral (quote :: s) = .ok (String.ofList (if quote = '`' then normalize cs else cs), r)) ∨
        ∃ kind, LiteralFault quote u kind ∧ readLiteral (quote :: s) = .error (kind.inLiteral (quote :: s) u)) := by
  obtain ⟨cs, ws, u, hcs, rfl, ⟨r, rfl⟩ | ⟨kind, hkind⟩⟩ := items_then quote s
  · exact ⟨cs, ws, _, hcs, rfl, .inl ⟨r, rfl, readLiteral_items hq hcs r⟩⟩
  · exact ⟨cs, ws, u, hcs, rfl, .inr ⟨kind, hkind, readLiteral_fault hq hcs hkind⟩⟩

theorem readLiteral_eq_ok (hq : isQuote quote = true) {value : String} :
    readLiteral (quote :: s) = .ok (value, r) ↔
      ∃ cs ws, LiteralItems quote cs ws ∧ s = ws ++ quote :: r ∧
        value = String.ofList (if quote = '`' then normalize cs else cs) := by
  constructor
  · intro h
    obtain ⟨cs, ws, u, hcs, hs, ⟨r', rfl, hok⟩ | ⟨kind, -, herror⟩⟩ := readLiteral_cases hq s
    · rw [hok] at h
      obtain ⟨rfl, rfl⟩ := Prod.mk.inj (Except.ok.inj h)
      exact ⟨cs, ws, hcs, hs, rfl⟩
    · rw [herror] at h
      contradiction
  · rintro ⟨cs, ws, hcs, rfl, rfl⟩
    exact readLiteral_items hq hcs r

theorem readLiteral_eq_error (hq : isQuote quote = true) {f : Fault} :
    readLiteral (quote :: s) = .error f ↔
      ∃ cs ws u kind, LiteralItems quote cs ws ∧ s = ws ++ u ∧ LiteralFault quote u kind ∧
        f = kind.inLiteral (quote :: s) u := by
  constructor
  · intro h
    obtain ⟨cs, ws, u, hcs, hs, ⟨r, -, hok⟩ | ⟨kind, hkind, herror⟩⟩ := readLiteral_cases hq s
    · rw [hok] at h
      contradiction
    · rw [herror] at h
      exact ⟨cs, ws, u, kind, hcs, hs, hkind, (Except.error.inj h).symm⟩
  · rintro ⟨cs, ws, u, kind, hcs, rfl, hkind, rfl⟩
    exact readLiteral_fault hq hcs hkind

end

/-! ## In a source -/

theorem mapError_eq_error {α β γ : Type} {g : α → β} {x : Except α γ} {e : β} :
    x.mapError g = .error e ↔ ∃ f, x = .error f ∧ g f = e := by
  cases x with
  | error f => simp [Except.mapError]
  | ok a => simp [Except.mapError]

theorem locate_inLiteral (kind : ParseErrorKind) (before ws u : List Char) (quote : Char) :
    (kind.inLiteral (quote :: (ws ++ u)) u).locate (before ++ quote :: (ws ++ u)) =
      if kind = .unterminatedString then .between kind before (quote :: (ws ++ u))
      else .between kind (before ++ quote :: ws) u := by
  unfold ParseErrorKind.inLiteral
  split
  · exact Fault.locate_append kind before _
  · have := Fault.locate_append kind (before ++ quote :: ws) u
    rwa [List.append_assoc] at this

/-- A literal is read if and only if items and the quote follow its opening quote: it ends behind that quote, and its
value is what the items stand for. Otherwise the error is that of the first place at which neither stands. Every text
is the value of a literal in single quotes. -/
theorem literals_are_exact {quote : Char} (hquote : quote = '\'' ∨ quote = '"' ∨ quote = '`') (before s : List Char) :
    (∀ value r, readLiteral (quote :: s) = .ok (value, r) ↔
      ∃ cs ws, LiteralItems quote cs ws ∧ s = ws ++ quote :: r ∧
        value = String.ofList (if quote = '`' then normalize cs else cs)) ∧
    (∀ e, (readLiteral (quote :: s)).mapError (·.locate (before ++ quote :: s)) = .error e ↔
      ∃ cs ws u kind, LiteralItems quote cs ws ∧ s = ws ++ u ∧ LiteralFault quote u kind ∧
        e = if kind = .unterminatedString then .between kind before (quote :: s)
          else .between kind (before ++ quote :: ws) u) ∧
    ∀ v : String, ∃ ws, LiteralItems '\'' v.toList ws ∧ ∀ r, readLiteral ('\'' :: (ws ++ '\'' :: r)) = .ok (v, r) := by
  have hq : isQuote quote = true := by rcases hquote with rfl | rfl | rfl <;> rfl
  refine ⟨fun value r => readLiteral_eq_ok hq, fun e => ?_, fun v => ?_⟩
  · rw [mapError_eq_error]
    constructor
    · rintro ⟨f, hf, rfl⟩
      obtain ⟨cs, ws, u, kind, hcs, rfl, hkind, rfl⟩ := (readLiteral_eq_error hq).1 hf
      exact ⟨cs, ws, u, kind, hcs, rfl, hkind, locate_inLiteral kind before ws u quote⟩
    · rintro ⟨cs, ws, u, kind, hcs, rfl, hkind, rfl⟩
      exact ⟨_, readLiteral_fault hq hcs hkind, locate_inLiteral kind before ws u quote⟩
  · have hitems : LiteralItems '\'' v.toList (v.toList.flatMap spelling) :=
      items_iff_spellsAll.2 (spellsAll_spelling v.toList)
    refine ⟨_, hitems, fun r => ?_⟩
    rw [readLiteral_items rfl hitems, if_neg (by decide), String.ofList_toList]

theorem mixedEscapes_are_decoded :
    ('"' = '\'' ∨ '"' = '"' ∨ '"' = '`') ∧
      readLiteral "\"\\x41\\u00e9'\\/\" b".toList = .ok ("Aé'/", " b".toList) := by
  have hx : LiteralItem '"' 'A' "\\x41".toList := @LiteralItem.hex '"' ['4', '1'] _ rfl (hexNumber?_eq_some.1 rfl)
  have hu : LiteralItem '"' 'é' "\\u00e9".toList :=
    @LiteralItem.unicode '"' ['0', '0', 'e', '9'] _ rfl (hexNumber?_eq_some.1 rfl) (by unfold IsSurrogate; decide)
  have hplain : LiteralItem '"' '\'' ['\''] := .plain (by decide) (by decide) (by decide)
  have hslash : LiteralItem '"' '/' ['\\', '/'] := .letter (by decide)
  exact ⟨.inr (.inl rfl), ((literals_are_exact (.inr (.inl rfl)) [] _).1 _ _).2
    ⟨_, _, .cons hx (.cons hu (.cons hplain (.cons hslash .nil))), rfl, rfl⟩⟩

end BlockTemplates.Source
