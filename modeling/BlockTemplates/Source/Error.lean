/-
Errors in a source. A reader that fails says what is wrong and where: a `Fault` holds the text from the faulty place
on. `ParseError` is the same error in terms of the whole source: byte offset, line, column and the source line.

Main statement: `Fault.locate_append` (a fault lies between the text before it and the text it holds).
-/
import BlockTemplates.Text.Quoted
import BlockTemplates.Text.Size

namespace BlockTemplates.Source

open Text

/-! ## Kinds of errors -/

inductive ParseErrorKind where
  | invalidBlockName
  | expectedElement
  | expectedElementName
  | invalidAttributeName
  | unterminatedAttribute
  | invalidAttributes
  | missingClosingBrace
  | unterminatedComment
  | unterminatedString
  | malformedHexEscape
  | malformedUnicodeEscape
  | unknownEscape (c : Char)
  /-- another character, or the end of the input, stands where `expected` has to stand -/
  | expected (expected : Char) (found : Option Char)
deriving DecidableEq, Repr

/-- what was found, in words -/
def describeFound : Option Char → String
  | some c => quotedChar c
  | none => "end of input"

def ParseErrorKind.message : ParseErrorKind → String
  | .invalidBlockName => "invalid block declaration"
  | .expectedElement => "expected element"
  | .expectedElementName => "expected element name"
  | .invalidAttributeName => "invalid attribute name"
  | .unterminatedAttribute => "unterminated attribute value"
  | .invalidAttributes => "expected \",\" or \")\" in attribute list"
  | .missingClosingBrace => "missing \"\x7d\" in compound statement"
  | .unterminatedComment => "missing \"*/\" in comment"
  | .unterminatedString => "unterminated string"
  | .malformedHexEscape => "malformed hexadecimal escape sequence"
  | .malformedUnicodeEscape => "malformed unicode escape sequence"
  | .unknownEscape c => "unknown escape sequence \"\\" ++ c.toString ++ "\""
  | .expected c found => "expected " ++ quotedChar c ++ " instead of " ++ describeFound found

/-- what a reader reports -/
structure Fault where
  kind : ParseErrorKind
  /-- the text from the fault on -/
  rest : List Char
deriving DecidableEq, Repr

/-! ## Errors with their position -/

structure ParseError where
  kind : ParseErrorKind
  /-- in bytes -/
  offset : Nat
  /-- from 1 -/
  line : Nat
  /-- from 1, in characters -/
  column : Nat
  /-- the source line around the offset -/
  fragment : String
deriving DecidableEq, Repr

/-- the part of the last line before the end of the text -/
def lastLine (s : List Char) : List Char := (s.reverse.takeWhile (· != '\n')).reverse

/-- the part of the first line -/
def firstLine (s : List Char) : List Char := s.takeWhile (fun c => c != '\n' && c != '\r')

/-- an error between two parts of a source -/
def ParseError.between (kind : ParseErrorKind) (before after : List Char) : ParseError where
  kind := kind
  offset := byteSize before
  line := before.count '\n' + 1
  column := (lastLine before).length + 1
  fragment := String.ofList (lastLine before ++ firstLine after)

/-- an error at a byte offset, moved back to the end of the source if it lies beyond -/
def ParseError.atOffset (kind : ParseErrorKind) (source : List Char) (offset : Nat) : ParseError :=
  .between kind (takeBytes offset source) (dropBytes offset source)

/-- where in its source a fault lies -/
def Fault.locate (f : Fault) (source : List Char) : ParseError :=
  .between f.kind (source.take (source.length - f.rest.length)) f.rest

theorem Fault.locate_append (kind : ParseErrorKind) (before rest : List Char) :
    (Fault.mk kind rest).locate (before ++ rest) = .between kind before rest := by
  simp [Fault.locate]

def ParseError.message (e : ParseError) : String :=
  s!"syntax error: {e.kind.message} at line {e.line} column {e.column} (offset {e.offset}): {quoted e.fragment}"

end BlockTemplates.Source
