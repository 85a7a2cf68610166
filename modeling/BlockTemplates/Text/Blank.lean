/-
Blank characters and trimming. A blank is a character with the Unicode property White_Space; the set has 25 members
and is given here in full, because the character class of the core library knows the ASCII ones only.

Main statements: `isBlank_of_isWhitespace` (the core library's blanks are among them) and `trim_sublist` (trimming only
drops characters).
-/

namespace BlockTemplates.Text

/-! ## The class -/

/-- a character of the Unicode class White_Space -/
def isBlank (c : Char) : Bool :=
  let n := c.toNat
  (9 ≤ n && n ≤ 13) || n == 0x20 || n == 0x85 || n == 0xa0 || n == 0x1680 || (0x2000 ≤ n && n ≤ 0x200a) ||
    n == 0x2028 || n == 0x2029 || n == 0x202f || n == 0x205f || n == 0x3000

theorem isBlank_of_isWhitespace (c : Char) (h : c.isWhitespace = true) : isBlank c = true := by
  simp only [Char.isWhitespace, Bool.or_eq_true, decide_eq_true_eq] at h
  rcases h with ((rfl | rfl) | rfl) | rfl <;> decide

/-! ## Trimming -/

/-- drop the blanks at the front -/
def trimStart (s : List Char) : List Char := s.dropWhile isBlank

/-- drop the blanks at the back -/
def trimEnd (s : List Char) : List Char := (s.reverse.dropWhile isBlank).reverse

/-- drop the blanks at both ends -/
def trim (s : List Char) : List Char := trimEnd (trimStart s)

theorem trimStart_sublist (s : List Char) : (trimStart s).Sublist s := List.dropWhile_sublist _

theorem trimEnd_sublist (s : List Char) : (trimEnd s).Sublist s := by
  have := (@List.dropWhile_sublist _ s.reverse isBlank).reverse
  simpa [trimEnd] using this

theorem trim_sublist (s : List Char) : (trim s).Sublist s := (trimEnd_sublist _).trans (trimStart_sublist s)

end BlockTemplates.Text
