/-
String literals. A literal stands between two equal quotes; inside, a backslash starts an escape. Literals in backticks
may run over several lines, and their value is brought into the multi-line normal form; the others end on their line.

Main statement: `readLiteral_isRest` (a literal takes at least one character off the text).
-/
import BlockTemplates.Source.Scan
import BlockTemplates.Text.Lines

namespace BlockTemplates.Source

open Text

def isQuote (c : Char) : Bool := c == '\'' || c == '"' || c == '`'

/-! ## Escapes -/

/-- the value of a hexadecimal digit -/
def hexValue? (c : Char) : Option Nat :=
  if '0' ≤ c ∧ c ≤ '9' then some (c.toNat - '0'.toNat)
  else if 'a' ≤ c ∧ c ≤ 'f' then some (c.toNat - 'a'.toNat + 10)
  else if 'A' ≤ c ∧ c ≤ 'F' then some (c.toNat - 'A'.toNat + 10)
  else none

/-- the number that hexadecimal digits denote -/
def hexNumber? (digits : List Char) : Option Nat :=
  digits.foldlM (fun n c => (hexValue? c).map (16 * n + ·)) 0

/-- the character with a code point; surrogates are none -/
def charOfCode? (n : Nat) : Option Char := if n.isValidChar then some (Char.ofNat n) else none

/-- the character that `count` hexadecimal digits at the front denote, and what follows them -/
def readHex (count : Nat) (s : List Char) : Option (Char × List Char) :=
  if (s.take count).length = count then
    ((hexNumber? (s.take count)).bind charOfCode?).map (·, s.drop count)
  else none

/-- the escapes of one letter -/
def simpleEscape? : Char → Option Char
  | 'n' => some '\n'
  | 'r' => some '\r'
  | 't' => some '\t'
  | 'b' => some '\x08'
  | 'f' => some '\x0c'
  | '\\' => some '\\'
  | '/' => some '/'
  | _ => none

/-- the character that an escape denotes, given the text after its backslash; `literal` is the text from the opening
quote on -/
def readEscape (literal : List Char) : List Char → Except Fault (Char × List Char)
  | [] => .error ⟨.unterminatedString, literal⟩
  | 'x' :: s =>
    match readHex 2 s with
    | some p => .ok p
    | none => .error ⟨.malformedHexEscape, '\\' :: 'x' :: s⟩
  | 'u' :: s =>
    match readHex 4 s with
    | some p => .ok p
    | none => .error ⟨.malformedUnicodeEscape, '\\' :: 'u' :: s⟩
  | c :: s =>
    match simpleEscape? c with
    | some d => .ok (d, s)
    | none => .error ⟨.unknownEscape c, '\\' :: c :: s⟩

theorem readHex_suffix {count : Nat} {s r : List Char} {c : Char} (h : readHex count s = some (c, r)) : r <:+ s := by
  unfold readHex at h
  split at h
  · obtain ⟨_, _, hc⟩ := Option.map_eq_some_iff.1 h
    rw [← (Prod.mk.inj hc).2]
    exact List.drop_suffix count s
  · simp at h

theorem readEscape_suffix {literal s r : List Char} {c : Char} (h : readEscape literal s = .ok (c, r)) : r <:+ s := by
  unfold readEscape at h
  split at h
  · simp at h
  · split at h
    · rename_i hx
      simp only [Except.ok.injEq] at h
      exact (readHex_suffix (h ▸ hx)).trans (List.suffix_cons _ _)
    · simp at h
  · split at h
    · rename_i hx
      simp only [Except.ok.injEq] at h
      exact (readHex_suffix (h ▸ hx)).trans (List.suffix_cons _ _)
    · simp at h
  · split at h
    · simp only [Except.ok.injEq, Prod.mk.injEq] at h
      rw [← h.2]
      exact List.suffix_cons _ _
    · simp at h

/-! ## Literals -/

/-- the characters up to the closing quote; `read` holds those already decoded, last one first -/
def readChars (quote : Char) (literal read : List Char) : List Char → Except Fault (List Char × List Char)
  | [] => .error ⟨.unterminatedString, literal⟩
  | c :: s =>
    if c = quote then .ok (read.reverse, s)
    else if c = '\\' then
      match _h : readEscape literal s with
      | .error f => .error f
      | .ok (d, r) => readChars quote literal (d :: read) r
    else if isLineEnd c ∧ quote ≠ '`' then .error ⟨.unterminatedString, literal⟩
    else readChars quote literal (c :: read) s
termination_by s => s.length
decreasing_by
  · exact (IsRest.of_cons (readEscape_suffix _h)).2
  · simp

theorem readChars_isRest {quote : Char} {literal read s v r : List Char}
    (h : readChars quote literal read s = .ok (v, r)) : IsRest r s := by
  fun_induction readChars quote literal read s with
  | case1 => simp at h
  | case2 read s =>
    simp only [Except.ok.injEq, Prod.mk.injEq] at h
    rw [← h.2]
    exact .of_cons List.suffix_rfl
  | case3 => simp at h
  | case4 _ _ _ _ hr _ ih => exact (ih h).trans (.of_cons (readEscape_suffix hr))
  | case5 => simp at h
  | case6 _ _ _ _ _ _ ih => exact (ih h).trans (.of_cons List.suffix_rfl)

/-- read a literal of any kind -/
def readLiteral : List Char → Except Fault (String × List Char)
  | [] => .error ⟨.expected '\'' none, []⟩
  | c :: s =>
    if isQuote c then
      match readChars c (c :: s) [] s with
      | .error f => .error f
      | .ok (value, r) => .ok (String.ofList (if c = '`' then normalize value else value), r)
    else .error ⟨.expected '\'' (some c), c :: s⟩

theorem readLiteral_isRest {s r : List Char} {v : String} (h : readLiteral s = .ok (v, r)) : IsRest r s := by
  unfold readLiteral at h
  split at h
  · simp at h
  · split at h
    · split at h
      · simp at h
      · rename_i hc
        simp only [Except.ok.injEq, Prod.mk.injEq] at h
        rw [← h.2]
        exact .trans (readChars_isRest hc) (.of_cons List.suffix_rfl)
    · simp at h

end BlockTemplates.Source
