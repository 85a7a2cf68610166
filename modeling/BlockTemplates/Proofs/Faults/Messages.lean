/-
Messages tell errors apart. A message is made of fixed phrases and of what the error is about: names, characters, source
lines and numbers. Quoted texts end at their quote and numbers at the next letter, whatever follows, and no phrase of one
kind of error begins that of another, so that the error can be read off its message.

Main statements: `quoted_unique`, `ParseError.message_injective`, `CompileError.message_injective` and
`RenderError.message_injective`.
-/
import BlockTemplates.Proofs.Layout.Literals
import BlockTemplates.Proofs.Text.Items
import BlockTemplates.Template.Error
import BlockTemplates.Template.Render
import Mathlib.Data.List.Pairwise

namespace BlockTemplates

open Source

namespace Text

/-! ## Quoted texts -/

/-- texts up to the first place of a character -/
theorem split_unique {a : Char} {x x' r r' : List Char} (h : a ∉ x) (h' : a ∉ x') (heq : x ++ a :: r = x' ++ a :: r') :
    x = x' ∧ r = r' := by
  induction x generalizing x' with
  | nil =>
    cases x' with
    | nil => simpa using heq
    | cons b x' => exact absurd (List.cons.inj heq).1 (List.ne_of_not_mem_cons h')
  | cons b x ih =>
    cases x' with
    | nil => exact absurd (List.cons.inj heq).1.symm (List.ne_of_not_mem_cons h)
    | cons b' x' =>
      obtain ⟨rfl, htail⟩ := List.cons.inj heq
      obtain ⟨rfl, hr⟩ := ih (List.not_mem_of_not_mem_cons h) (List.not_mem_of_not_mem_cons h') htail
      exact ⟨rfl, hr⟩

/-- how texts are quoted in messages -/
def quotedEscaping (quote : Char) : Escaping where
  plain c := c ≠ '\\' ∧ c ≠ quote
  letters := [('0', '\x00'), ('t', '\t'), ('r', '\r'), ('n', '\n'), ('\\', '\\'), (quote, quote)]
  code n w := ∃ ds, Denotes ds n ∧ w = '\x7b' :: (ds ++ ['\x7d'])

theorem closing_notMem {ds : List Char} {n : Nat} (h : Denotes ds n) : '\x7d' ∉ ds := by
  induction h with
  | nil => exact List.not_mem_nil
  | @snoc ds d n v _ hd ih =>
    have hne : '\x7d' ≠ d := by
      rintro rfl
      exact absurd hd.toNat_lt (by decide)
    simp [ih, hne]

section

variable {quote c c' : Char} {r r' : List Char}

theorem quotedEscaping_distinct (h : quote = '"' ∨ quote = '\'') : (quotedEscaping quote).Distinct quote where
  ne_backslash := by rcases h with rfl | rfl <;> decide
  plain := id
  letter := by rcases h with rfl | rfl <;> decide +kernel
  code := by
    rintro n n' w w' r r' ⟨ds, hn, rfl⟩ ⟨ds', hn', rfl⟩ heq
    simp only [List.cons_append, List.append_assoc, List.nil_append, List.cons.injEq, true_and] at heq
    obtain ⟨rfl, hr⟩ := split_unique (closing_notMem hn) (closing_notMem hn') heq
    exact ⟨hn.unique hn', hr⟩

theorem denotes_hexDigits (n : Nat) : Denotes (hexDigits n) n := by
  have hdigit : ∀ v < 16, IsHexDigit (Nat.digitChar v) v := by decide
  unfold hexDigits
  induction n using Nat.strongRecOn with
  | ind n ih =>
    by_cases hn : n < 16
    · rw [Nat.toDigits_of_lt_base hn]
      simpa using Denotes.nil.snoc (hdigit n hn)
    · rw [Nat.toDigits_of_base_le (by decide) (Nat.le_of_not_lt hn)]
      have hsnoc := (ih (n / 16) (by omega)).snoc (hdigit (n % 16) (Nat.mod_lt n (by decide)))
      rwa [Nat.div_add_mod] at hsnoc

theorem item_quoteChar (quote c : Char) : (quotedEscaping quote).Item c (quoteChar quote c) := by
  unfold quoteChar
  split
  case isTrue h => exact .letter (by simp [quotedEscaping, h])
  split
  case isTrue h => exact .letter (by simp [quotedEscaping, h])
  split
  case isTrue h => exact .letter (by simp [quotedEscaping, h])
  split
  case isTrue h => exact .letter (by simp [quotedEscaping, h])
  split
  case isTrue h => exact .letter (by rcases h with h | h <;> simp [quotedEscaping, h])
  rename_i h
  split
  · exact .plain (not_or.1 h)
  · exact .code ⟨_, denotes_hexDigits c.toNat, rfl⟩

theorem quoted_unique {s s' : String} (heq : (quoted s).toList ++ r = (quoted s').toList ++ r') : s = s' ∧ r = r' := by
  simp only [quoted, String.toList_ofList, List.cons_append, List.append_assoc, List.nil_append, List.cons.injEq,
    true_and] at heq
  obtain ⟨hs, hr⟩ := (items_flatMap (item_quoteChar '"') s.toList).unique (quotedEscaping_distinct (.inl rfl)).separable
    (items_flatMap (item_quoteChar '"') s'.toList) heq
  exact ⟨String.toList_inj.1 hs, hr⟩

theorem quotedChar_unique (heq : (quotedChar c).toList ++ r = (quotedChar c').toList ++ r') : c = c' ∧ r = r' := by
  simp only [quotedChar, String.toList_ofList, List.cons_append, List.append_assoc, List.nil_append, List.cons.injEq,
    true_and] at heq
  obtain ⟨hc, hr⟩ := (quotedEscaping_distinct (.inr rfl)).unique (item_quoteChar '\'' c) (item_quoteChar '\'' c') heq
  exact ⟨hc, (List.cons.inj hr).2⟩

/-- numbers up to a text that begins with no digit -/
theorem number_unique {n n' : Nat} {t : List Char} (ht : t.head?.map Char.isDigit = some false)
    (heq : n.repr.toList ++ (t ++ r) = n'.repr.toList ++ (t ++ r')) : n = n' ∧ r = r' := by
  cases t with
  | nil => simp at ht
  | cons c t =>
    have hc : c.isDigit = false := by simpa using ht
    have hmem (n : Nat) : c ∉ Nat.toDigits 10 n := by
      intro hmem
      simp [Nat.isDigit_of_mem_toDigits (by decide) (by decide) hmem] at hc
    rw [Nat.toList_repr, Nat.toList_repr] at heq
    obtain ⟨hdigits, hr⟩ := split_unique (hmem n) (hmem n') heq
    have hn : n = n' := calc
      n = Nat.ofDigitChars 10 (Nat.toDigits 10 n) 0 := Nat.ofDigitChars_ten_toDigits.symm
      _ = Nat.ofDigitChars 10 (Nat.toDigits 10 n') 0 := by rw [hdigits]
      _ = n' := Nat.ofDigitChars_ten_toDigits
    exact ⟨hn, List.append_cancel_left hr⟩

end

end Text

open Text

/-! ## Beginnings -/

/-- neither text begins the other -/
def Apart (s t : String) : Prop := ¬ s.toList <+: t.toList ∧ ¬ t.toList <+: s.toList

instance (s t : String) : Decidable (Apart s t) := inferInstanceAs (Decidable (_ ∧ _))

/-- a text begins as one thing at most of those whose beginnings are apart -/
theorem front_unique {α : Type} (front : α → String) {l : List α}
    (hl : l.Pairwise fun a b => Apart (front a) (front b)) {a b : α} (ha : a ∈ l) (hb : b ∈ l) {text : List Char}
    (hatext : (front a).toList <+: text) (hbtext : (front b).toList <+: text) : a = b := by
  apply Classical.byContradiction
  intro hne
  have : Std.Symm fun a b : α => Apart (front a) (front b) := ⟨fun _ _ h => ⟨h.2, h.1⟩⟩
  obtain ⟨hab, hba⟩ := hl.forall ha hb hne
  rcases List.prefix_or_prefix_of_prefix hatext hbtext with h | h
  · exact hab h
  · exact hba h

/-- a name between fixed words -/
theorem name_unique {s name name' t : String} (h : s ++ name ++ t = s ++ name' ++ t) : name = name' := by
  simpa [String.append_assoc] using h

namespace Source

/-! ## Errors in a source -/

/-- the kind without the characters it is about -/
def ParseErrorKind.bare : ParseErrorKind → ParseErrorKind
  | .unknownEscape _ => .unknownEscape ' '
  | .expected _ _ => .expected ' ' none
  | k => k

def bareKinds : List ParseErrorKind :=
  [.invalidBlockName, .expectedElement, .expectedElementName, .invalidAttributeName, .unterminatedAttribute,
    .invalidAttributes, .missingClosingBrace, .unterminatedComment, .unterminatedString, .malformedHexEscape,
    .malformedUnicodeEscape, .unknownEscape ' ', .expected ' ' none]

/-- how a message begins, up to the characters it is about, with what stands behind all messages -/
def ParseErrorKind.front : ParseErrorKind → String
  | .unknownEscape _ => "unknown escape sequence \"\\"
  | .expected _ _ => "expected '"
  | k => k.message ++ " at line "

theorem ParseErrorKind.message_unknownEscape (c : Char) :
    (unknownEscape c).message = "unknown escape sequence \"\\" ++ c.toString ++ "\"" := rfl

theorem ParseErrorKind.message_expected (c : Char) (found : Option Char) :
    (expected c found).message = "expected " ++ quotedChar c ++ " instead of " ++ describeFound found := rfl

theorem ParseError.message_eq (e : ParseError) :
    e.message = "syntax error: " ++ e.kind.message ++ " at line " ++ e.line.repr ++ " column " ++ e.column.repr ++
      " (offset " ++ e.offset.repr ++ "): " ++ quoted e.fragment := rfl

theorem bareKinds_apart : bareKinds.Pairwise fun k k' => Apart k.front k'.front := by decide +kernel

section

variable {k k' : ParseErrorKind} {r r' : List Char}

theorem ParseErrorKind.bare_mem (k : ParseErrorKind) : k.bare ∈ bareKinds := by
  cases k <;> simp [bare, bareKinds]

theorem ParseErrorKind.front_bare (k : ParseErrorKind) : k.bare.front = k.front := by
  cases k <;> rfl

theorem ParseErrorKind.front_prefix (k : ParseErrorKind) (r : List Char) :
    k.front.toList <+: k.message.toList ++ (" at line ".toList ++ r) := by
  have hplain (s t : String) : (s ++ t).toList <+: s.toList ++ (t.toList ++ r) := by
    rw [String.toList_append, ← List.append_assoc]
    exact List.prefix_append _ _
  cases k with
  | unknownEscape c =>
    rw [message_unknownEscape]
    simp only [front, String.toList_append, List.append_assoc]
    exact List.prefix_append _ _
  | expected c found =>
    have hquote : "expected '".toList = "expected ".toList ++ ['\''] := by decide
    rw [message_expected]
    simp only [front, quotedChar, hquote, String.toList_append, String.toList_ofList, List.append_assoc,
      List.prefix_append_right_inj, List.cons_append, List.cons_prefix_cons, List.nil_prefix, and_self]
  | _ => exact hplain _ _

theorem describeFound_unique {found found' : Option Char}
    (heq : (describeFound found).toList ++ r = (describeFound found').toList ++ r') : found = found' := by
  have hne (c : Char) (r r' : List Char) : (quotedChar c).toList ++ r ≠ "end of input".toList ++ r' := by
    simp [quotedChar]
  cases found with
  | none =>
    cases found' with
    | none => rfl
    | some c' => exact absurd heq.symm (hne c' r' r)
  | some c =>
    cases found' with
    | none => exact absurd heq (hne c r r')
    | some c' => rw [(quotedChar_unique heq).1]

theorem ParseErrorKind.message_unique
    (heq : k.message.toList ++ (" at line ".toList ++ r) = k'.message.toList ++ (" at line ".toList ++ r')) :
    k = k' ∧ r = r' := by
  have hbare : k.bare = k'.bare := front_unique front bareKinds_apart k.bare_mem k'.bare_mem
    (k.front_bare ▸ k.front_prefix r) (k'.front_bare ▸ heq ▸ k'.front_prefix r')
  have hk : k = k' := by
    cases k with
    | unknownEscape c =>
      cases k' with
      | unknownEscape c' =>
        simp only [message_unknownEscape, String.toList_append, List.append_assoc, List.append_cancel_left_eq] at heq
        obtain ⟨rfl, -⟩ : c = c' ∧ r = r' := by simpa using heq
        rfl
      | _ => cases hbare
    | expected c found =>
      cases k' with
      | expected c' found' =>
        simp only [message_expected, String.toList_append, List.append_assoc, List.append_cancel_left_eq] at heq
        obtain ⟨rfl, hrest⟩ := quotedChar_unique heq
        rw [describeFound_unique (List.append_cancel_left hrest)]
      | _ => cases hbare
    | _ =>
      cases k' <;> cases hbare
      rfl
  subst hk
  exact ⟨rfl, List.append_cancel_left (List.append_cancel_left heq)⟩

end

theorem ParseError.message_injective {e e' : ParseError} (heq : e.message = e'.message) : e = e' := by
  obtain ⟨kind, offset, line, column, fragment⟩ := e
  obtain ⟨kind', offset', line', column', fragment'⟩ := e'
  have htext := congrArg String.toList heq
  simp only [message_eq, String.toList_append, List.append_assoc, List.append_cancel_left_eq] at htext
  obtain ⟨rfl, hline⟩ := ParseErrorKind.message_unique htext
  obtain ⟨rfl, hcolumn⟩ := number_unique (by decide) hline
  obtain ⟨rfl, hoffset⟩ := number_unique (by decide) hcolumn
  obtain ⟨rfl, hfragment⟩ := number_unique (by decide) hoffset
  have hend : (quoted fragment).toList ++ [] = (quoted fragment').toList ++ [] := by simpa using hfragment
  obtain ⟨rfl, -⟩ := quoted_unique hend
  rfl

end Source

/-! ## Errors in a tree -/

/-- the error without the name it is about -/
def CompileError.bare : CompileError → CompileError
  | .undefinedSuperTarget _ => .undefinedSuperTarget ""
  | .undefinedHelper _ => .undefinedHelper ""
  | .recursiveElement _ => .recursiveElement ""
  | e => e

def bareCompileErrors : List CompileError :=
  [.missingBlockName, .superWithoutParent .content, .superWithoutParent .attributes, .undefinedSuperTarget "",
    .superOutsideElement, .anonymousAttributeSuper, .unresolvedHelperName, .undefinedHelper "", .recursiveElement "",
    .expansionTooDeep]

/-- how a message begins, up to the name it is about -/
def CompileError.front : CompileError → String
  | .undefinedSuperTarget _ => "super call for element \""
  | .undefinedHelper _ => "helper \""
  | .recursiveElement _ => "element \""
  | e => e.message

theorem bareCompileErrors_apart : bareCompileErrors.Pairwise fun e e' => Apart e.front e'.front := by decide +kernel

theorem CompileError.bare_mem (e : CompileError) : e.bare ∈ bareCompileErrors := by
  cases e with
  | superWithoutParent place => cases place <;> simp [bare, bareCompileErrors]
  | _ => simp [bare, bareCompileErrors]

theorem CompileError.front_bare (e : CompileError) : e.bare.front = e.front := by
  cases e <;> rfl

theorem CompileError.front_prefix (e : CompileError) : e.front.toList <+: e.message.toList := by
  have hname (s name t : String) : s.toList <+: (s ++ name ++ t).toList := by
    rw [String.toList_append, String.toList_append, List.append_assoc]
    exact List.prefix_append _ _
  cases e with
  | undefinedSuperTarget | undefinedHelper | recursiveElement => exact hname _ _ _
  | _ => exact List.prefix_rfl

theorem CompileError.message_injective {e e' : CompileError} (heq : e.message = e'.message) : e = e' := by
  have hbare : e.bare = e'.bare := front_unique front bareCompileErrors_apart e.bare_mem e'.bare_mem
    (e.front_bare ▸ e.front_prefix) (e'.front_bare ▸ heq ▸ e'.front_prefix)
  cases e with
  | undefinedSuperTarget name =>
    cases e' with
    | undefinedSuperTarget name' => rw [name_unique heq]
    | _ => cases hbare
  | undefinedHelper name =>
    cases e' with
    | undefinedHelper name' => rw [name_unique heq]
    | _ => cases hbare
  | recursiveElement name =>
    cases e' with
    | recursiveElement name' => rw [name_unique heq]
    | _ => cases hbare
  | _ =>
    cases e' <;> cases hbare
    rfl

/-! ## Errors of rendering -/

theorem RenderError.message_injective {e e' : RenderError} (heq : e.message = e'.message) : e = e' := by
  have hne (name : String) : (undefinedElement name).message ≠ tooDeep.message := by
    intro h
    have htext := congrArg String.toList h
    simp [message] at htext
  cases e with
  | undefinedElement name =>
    cases e' with
    | undefinedElement name' => rw [name_unique heq]
    | tooDeep => exact absurd heq (hne name)
  | tooDeep =>
    cases e' with
    | undefinedElement name' => exact absurd heq.symm (hne name')
    | tooDeep => rfl

end BlockTemplates
