/-
Printing of JSON over several lines: two spaces of indentation per level, one item or field a line, `[]` and `{}` for
what is empty. Text beyond ASCII is written as it is; of the control characters those below U+0020 are escaped.
-/
import BlockTemplates.Json.Basic

namespace BlockTemplates.Json

/-- two lower-case hexadecimal digits -/
def hexPair (n : Nat) : List Char := [Nat.digitChar (n / 16), Nat.digitChar (n % 16)]

/-- one character inside a JSON string -/
def stringChar (c : Char) : List Char :=
  match c with
  | '"' => ['\\', '"']
  | '\\' => ['\\', '\\']
  | '\x08' => ['\\', 'b']
  | '\x0c' => ['\\', 'f']
  | '\n' => ['\\', 'n']
  | '\r' => ['\\', 'r']
  | '\t' => ['\\', 't']
  | c => if c.toNat < 0x20 then ['\\', 'u', '0', '0'] ++ hexPair c.toNat else [c]

/-- a JSON string with its quotes -/
def stringLiteral (s : String) : String := String.ofList ('"' :: (s.toList.flatMap stringChar ++ ['"']))

/-- a new line, indented -/
def newLine (depth : Nat) : String := String.ofList ('\n' :: List.replicate (2 * depth) ' ')

/-- items or fields between brackets, one a line -/
def bracketed (opening closing : String) (depth : Nat) (lines : List String) : String :=
  match lines with
  | [] => opening ++ closing
  | lines =>
    opening ++ newLine (depth + 1) ++ ("," ++ newLine (depth + 1)).intercalate lines ++ newLine depth ++ closing

mutual

/-- a value whose first line stands at `depth` -/
def prettyAt (depth : Nat) : Json → String
  | .null => "null"
  | .bool true => "true"
  | .bool false => "false"
  | .number text => text
  | .string s => stringLiteral s
  | .array items => bracketed "[" "]" depth (prettyItems (depth + 1) items)
  | .object fields => bracketed "\x7b" "\x7d" depth (prettyFields (depth + 1) fields)

def prettyItems (depth : Nat) : List Json → List String
  | [] => []
  | j :: js => prettyAt depth j :: prettyItems depth js

def prettyFields (depth : Nat) : List (String × Json) → List String
  | [] => []
  | (name, j) :: fields => (stringLiteral name ++ ": " ++ prettyAt depth j) :: prettyFields depth fields

end

def pretty (j : Json) : String := prettyAt 0 j

end BlockTemplates.Json
