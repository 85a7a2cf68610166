/-
Quoted texts, as messages show them: the text between quotes, with backslash escapes for the tab, the line endings,
NUL, the backslash and the enclosing quote, and `\u` with the code point in braces for whatever is not printable.

Three forms share the rule: a string (double quotes), a character (single quotes), and a file name or other system
string (double quotes, bytes that are no text as `\x` with two digits).
-/
import BlockTemplates.Text.Printable

namespace BlockTemplates.Text

/-- lower-case hexadecimal digits without leading zeros -/
def hexDigits (n : Nat) : List Char := Nat.toDigits 16 n

/-- a backslash, the letter u and the code point between braces -/
def codeEscape (c : Char) : List Char := '\\' :: 'u' :: '\x7b' :: (hexDigits c.toNat ++ ['\x7d'])

/-- one character of a text between quotes of the given kind -/
def quoteChar (quote c : Char) : List Char :=
  if c = '\x00' then ['\\', '0']
  else if c = '\t' then ['\\', 't']
  else if c = '\r' then ['\\', 'r']
  else if c = '\n' then ['\\', 'n']
  else if c = '\\' ∨ c = quote then ['\\', c]
  else if isPrintable c then [c]
  else codeEscape c

/-- a string in double quotes -/
def quoted (s : String) : String := String.ofList ('"' :: (s.toList.flatMap (quoteChar '"') ++ ['"']))

/-- a character in single quotes -/
def quotedChar (c : Char) : String := String.ofList ('\'' :: (quoteChar '\'' c ++ ['\'']))

/-- strings in brackets, with commas between -/
def quotedList (ss : List String) : String := "[" ++ ", ".intercalate (ss.map quoted) ++ "]"

/-! ## System strings -/

/-- a byte that is no part of a character: `\x` and two upper-case digits -/
def byteEscape (b : UInt8) : List Char :=
  let digit (n : Nat) : Char := (Nat.digitChar n).toUpper
  ['\\', 'x', digit (b.toNat / 16), digit (b.toNat % 16)]

/-- the bytes from `i` on; `n` bounds their number -/
def quoteBytesFrom (bytes : ByteArray) : Nat → Nat → List Char
  | 0, _ => []
  | n + 1, i =>
    if h : i < bytes.size then
      match bytes.utf8DecodeChar? i with
      | some c => quoteChar '"' c ++ quoteBytesFrom bytes n (i + c.utf8Size)
      | none => byteEscape bytes[i] ++ quoteBytesFrom bytes n (i + 1)
    else []

/-- a file name, or another string of the system, which need not be text -/
def quotedBytes (bytes : ByteArray) : String :=
  String.ofList ('"' :: (quoteBytesFrom bytes bytes.size 0 ++ ['"']))

end BlockTemplates.Text
