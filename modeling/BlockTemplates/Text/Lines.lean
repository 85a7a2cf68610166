/-
Lines of a text and the normal form of a multi-line text: every line trimmed, empty lines dropped, the rest joined by
single line feeds. A line ends at a line feed, a carriage return, or the two in the order CR LF.

`normalize` works on the whole text (trim, bring all line endings to LF, then cut); `linesOf` reads the lines off the
text directly, one ending at a time, and is what the normal form is about.
-/
import BlockTemplates.Text.Blank

namespace BlockTemplates.Text

/-! ## Line endings -/

/-- every line ending becomes a line feed -/
def unifyEndings : List Char → List Char
  | [] => []
  | '\r' :: '\n' :: s => '\n' :: unifyEndings s
  | c :: s => (if c = '\r' then '\n' else c) :: unifyEndings s

/-- put a character in front of the first line -/
def consLine (c : Char) : List (List Char) → List (List Char)
  | [] => [[c]]
  | l :: ls => (c :: l) :: ls

/-- cut at line feeds; the text has one piece more than line feeds -/
def cutAtFeeds (s : List Char) : List (List Char) :=
  s.foldr (fun c ls => if c = '\n' then [] :: ls else consLine c ls) [[]]

/-- the lines of a text, each without its ending -/
def linesOf : List Char → List (List Char)
  | [] => [[]]
  | '\r' :: '\n' :: s => [] :: linesOf s
  | c :: s => if c = '\r' ∨ c = '\n' then [] :: linesOf s else consLine c (linesOf s)

theorem consLine_ne_nil (c : Char) (ls : List (List Char)) : consLine c ls ≠ [] := by
  cases ls <;> simp [consLine]

theorem linesOf_ne_nil (s : List Char) : linesOf s ≠ [] := by
  fun_induction linesOf s with
  | case1 => simp
  | case2 => simp
  | case3 => simp
  | case4 c s _ _ ih => exact consLine_ne_nil c _

/-! ## The normal form -/

/-- one line feed between neighbours -/
def joinLines (ls : List (List Char)) : List Char := ['\n'].intercalate ls

/-- trim the lines and leave out those that are then empty -/
def tidy (ls : List (List Char)) : List (List Char) := (ls.map trim).filter (fun l => !l.isEmpty)

/-- the multi-line normal form -/
def normalize (s : List Char) : List Char := joinLines (tidy (cutAtFeeds (unifyEndings (trim s))))

end BlockTemplates.Text
