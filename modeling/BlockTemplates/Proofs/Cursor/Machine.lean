/-
Reading with a cursor. The cursor is a byte offset into the whole source: what the readers of `Source` take off the
front of the text that is left is here cut out of the source by bytes, and the cursor moved on by as many. Lengths come
from searches in the text, from names measured by bytes, or from what an escape or a super call has to be long.

Nothing is taken for granted: a cut beyond the source or inside a character ends the reading with `Stop.outside`, and so
does an error whose offset is no boundary. Every loop makes at most as many rounds as the source has characters and one
more, else it ends with `Stop.exhausted`. All offsets at which the cursor was are kept in the trail.
-/
import BlockTemplates.Proofs.Cursor.NameBytes
import BlockTemplates.Proofs.Layout.Attributes
import BlockTemplates.Source.Document

namespace BlockTemplates.Cursor

open Text Markup Source

/-! ## Readings -/

/-- why a reading ends early -/
inductive Stop where
  /-- an error in the source, at a byte offset -/
  | fault (kind : ParseErrorKind) (offset : Nat)
  /-- an offset at which a text cannot be cut -/
  | outside
  /-- a loop has made all its rounds -/
  | exhausted
deriving DecidableEq, Repr

/-- where the cursor is, and where it was before, the last offset first -/
structure Place where
  pos : Nat
  trail : List Nat
deriving DecidableEq, Repr

/-- what is done with a source at a place -/
def Reading (α : Type) : Type := List Char → Place → Except Stop α × Place

instance : Monad Reading where
  pure a := fun _ p => (.ok a, p)
  bind m k := fun s p =>
    match m s p with
    | (.ok a, q) => k a s q
    | (.error e, q) => (.error e, q)

theorem run_bind {α β : Type} (m : Reading α) (k : α → Reading β) (s : List Char) (p : Place) :
    (m >>= k) s p =
      match m s p with
      | (.ok a, q) => k a s q
      | (.error e, q) => (.error e, q) := rfl

section

variable {α : Type}

def stop (e : Stop) : Reading α := fun _ p => (.error e, p)

/-- the whole source -/
def source : Reading (List Char) := fun s p => (.ok s, p)

/-- the offset of the cursor -/
def position : Reading Nat := fun _ p => (.ok p.pos, p)

/-- move the cursor on by a number of bytes -/
def skip (n : Nat) : Reading Unit := fun _ p => (.ok (), ⟨p.pos + n, p.pos :: p.trail⟩)

/-- the parts of a text before and after a byte offset in it -/
def cut (n : Nat) (s : List Char) : Reading (List Char × List Char) :=
  match cut? n s with
  | some parts => pure parts
  | none => stop .outside

/-- the rounds that a loop may make -/
def rounds : Reading Nat := do return (← source).length + 1

/-- an error at an offset -/
def failAt (kind : ParseErrorKind) (offset : Nat) : Reading α := do
  let _ ← cut offset (← source)
  stop (.fault kind offset)

/-- an error at the cursor -/
def fail (kind : ParseErrorKind) : Reading α := do failAt kind (← position)

end

/-! ## Elementary readers -/

/-- the text from the cursor on -/
def rest : Reading (List Char) := do
  let parts ← cut (← position) (← source)
  return parts.2

/-- the part of the source from the cursor on with a number of bytes -/
def following (n : Nat) : Reading (List Char) := do
  let here ← position
  let upTo ← cut (here + n) (← source)
  let parts ← cut here upTo.1
  return parts.2

/-- the offset one byte back -/
def oneBack : Reading Nat := do
  let here ← position
  if here = 0 then stop .outside else return here - 1

/-- the next character -/
def peek : Reading (Option Char) := do return (← rest).head?

/-- take the next character off -/
def advance : Reading (Option Char) := do
  match ← peek with
  | none => return none
  | some c =>
    skip c.utf8Size
    return some c

/-- take the given character off, or fail -/
def expect (c : Char) : Reading Unit := do
  match ← peek with
  | none => fail (.expected c none)
  | some d => if d = c then skip c.utf8Size else fail (.expected c (some d))

/-- take the given text off, if it is there -/
def eat (text : List Char) : Reading Bool := do
  if text.isPrefixOf (← rest) then
    skip (byteSize text)
    return true
  else return false

def atComment : Reading Bool := do return Source.atComment (← rest)

def skipSpacesFor : Nat → Reading (Option Char)
  | 0 => stop .exhausted
  | n + 1 => do
    match ← peek with
    | none => return none
    | some c =>
      if isSpace c then
        skip c.utf8Size
        skipSpacesFor n
      else return some c

/-- take the spaces off; what comes next is not taken off -/
def skipSpaces : Reading (Option Char) := do skipSpacesFor (← rounds)

/-! ## Names -/

def readName (k : NameKind) : Reading (Option String) := do
  let length := nameLength k (utf8 (← rest))
  if length = 0 then return none
  else
    let name ← following length
    skip length
    return some (String.ofList name)

/-- the bytes of the name at the front of a text and the name, if an exclamation mark follows it -/
def matchTarget (target : List Char) : Reading (Option (Nat × String)) := do
  let length := nameLength .element (utf8 target)
  if length = 0 then return none
  else
    let parts ← cut length target
    if parts.2.head? = some '!' then return some (length, String.ofList parts.1) else return none

/-- the bytes of the super call at the cursor and its target; nothing is taken off -/
def matchSuperCall : Reading (Option (Nat × Option String)) := do
  match Source.eat "super".toList (← rest) with
  | none => return none
  | some after =>
    match Source.eat ['.'] after with
    | some target =>
      let found ← matchTarget target
      return found.map fun p => (5 + 1 + p.1 + 1, some p.2)
    | none => if after.head? = some '!' then return some (5 + 1, none) else return none

def readSuperCall : Reading (Option SuperCall) := do
  match ← matchSuperCall with
  | none => return none
  | some (length, name) =>
    skip length
    return some ⟨name⟩

/-- take a super call off where one may stand -/
def readSuperCallIf (allowed : Bool) : Reading (Option SuperCall) := if allowed then readSuperCall else pure none

/-! ## Comments and gaps -/

def readComment : Reading Comment := do
  let start ← position
  expect '/'
  match ← peek with
  | some '/' =>
    let _ ← advance
    let s ← rest
    let length := (findChar? isLineEnd s).getD (byteSize s)
    skip length
    let parts ← cut length s
    return ⟨String.ofList parts.1, false⟩
  | some '*' =>
    let _ ← advance
    let s ← rest
    match findText? ['*', '/'] s with
    | none => failAt .unterminatedComment start
    | some length =>
      skip (length + 2)
      let parts ← cut length s
      return ⟨String.ofList parts.1, true⟩
  | found => fail (.expected '/' found)

def skipGapFor : Nat → Reading (Option Char)
  | 0 => stop .exhausted
  | n + 1 => do
    match ← skipSpaces with
    | some '/' =>
      let _ ← readComment
      skipGapFor n
    | c => return c

/-- take spaces and comments off; what comes next is not taken off -/
def skipGap : Reading (Option Char) := do skipGapFor (← rounds)

/-! ## Literals -/

/-- the character that `count` digits denote; `backslash` is where the escape begins -/
def readHex (count : Nat) (kind : ParseErrorKind) (backslash : Nat) : Reading Char := do
  match (cut? count (← rest)).bind fun parts => (hexNumber? parts.1).bind charOfCode? with
  | none => failAt kind backslash
  | some c =>
    skip count
    return c

/-- the character that an escape denotes, behind its backslash -/
def readEscape (opening : Nat) : Reading Char := do
  let backslash ← oneBack
  match ← advance with
  | none => failAt .unterminatedString opening
  | some 'x' => readHex 2 .malformedHexEscape backslash
  | some 'u' => readHex 4 .malformedUnicodeEscape backslash
  | some c =>
    match simpleEscape? c with
    | none => failAt (.unknownEscape c) backslash
    | some d => return d

def readCharsFor (quote : Char) (opening : Nat) : Nat → List Char → Reading (List Char)
  | 0, _ => stop .exhausted
  | n + 1, read => do
    match ← advance with
    | none => failAt .unterminatedString opening
    | some c =>
      if c = quote then return read.reverse
      else if c = '\\' then
        let d ← readEscape opening
        readCharsFor quote opening n (d :: read)
      else if isLineEnd c ∧ quote ≠ '`' then failAt .unterminatedString opening
      else readCharsFor quote opening n (c :: read)

def readLiteral : Reading String := do
  let opening ← position
  match ← peek with
  | none => fail (.expected '\'' none)
  | some c =>
    if isQuote c then
      let _ ← advance
      let value ← readCharsFor c opening (← rounds) []
      return String.ofList (if c = '`' then normalize value else value)
    else fail (.expected '\'' (some c))

/-! ## Attribute lists -/

def readBareValue : Reading String := do
  let s ← rest
  match findChar? endsBareValue s with
  | none => fail .unterminatedAttribute
  | some length =>
    skip length
    let parts ← cut length s
    return String.ofList (trim parts.1)

def readValue : Reading String := do
  match ← skipSpaces with
  | none => readBareValue
  | some c => if isQuote c then readLiteral else readBareValue

def readAttribute : Reading Attribute := do
  match ← readName .attr with
  | none => fail .invalidAttributeName
  | some name =>
    match ← skipGap with
    | some '=' =>
      let _ ← advance
      let value ← readValue
      let _ ← skipGap
      return ⟨name, some value⟩
    | _ => return ⟨name, none⟩

def readEntry (superAllowed : Bool) : Reading Entry := do
  match ← readSuperCallIf superAllowed with
  | some call =>
    let _ ← skipGap
    return .superCall call
  | none => return .setting (← readAttribute)

def readEntriesFor : Nat → Bool → Reading (List Entry)
  | 0, _ => stop .exhausted
  | n + 1, superAllowed => do
    let e ← readEntry superAllowed
    match ← peek with
    | some ')' =>
      let _ ← advance
      return [e]
    | some ',' =>
      let _ ← advance
      let _ ← skipGap
      let es ← readEntriesFor n (superAllowed && !e.isSuperCall)
      return e :: es
    | _ => fail .invalidAttributes

def readAttributes : Reading Attributes := do
  expect '('
  match ← skipGap with
  | some ')' =>
    let _ ← advance
    return ⟨none, []⟩
  | _ => return attributesOfEntries (← readEntriesFor (← rounds) true)

/-! ## Heads -/

def readNamesFor : Nat → Reading (List String)
  | 0 => stop .exhausted
  | n + 1 => do
    match ← readName .element with
    | none => fail .expectedElementName
    | some name =>
      match ← skipSpaces with
      | some ',' =>
        let _ ← advance
        let _ ← skipSpaces
        let names ← readNamesFor n
        return name :: names
      | _ => return [name]

def readNameList : Reading (List (Option String)) := do
  match ← skipSpaces with
  | some ',' =>
    let _ ← advance
    let _ ← skipSpaces
    let names ← readNamesFor (← rounds)
    return none :: names.map some
  | _ =>
    let names ← readNamesFor (← rounds)
    return names.map some

def readTag : Reading (Option String) := do
  match ← readName .tag with
  | none => return none
  | some tag =>
    let _ ← skipSpaces
    return some tag

def readNamePart : Reading (Option (List (Option String))) := do
  match ← peek with
  | some '/' =>
    if ← atComment then return none
    else
      let _ ← advance
      return some (← readNameList)
  | _ => return none

def readAttributePart : Reading (Option Attributes) := do
  match ← peek with
  | some '(' =>
    let attributes ← readAttributes
    let _ ← skipSpaces
    return some attributes
  | _ => return none

def readHead : Reading Head := do
  let start ← position
  let isHelper ← eat ['@']
  let tagName ← readTag
  let names ← readNamePart
  if tagName.isNone && names.isNone then failAt .expectedElement start
  else
    let attributes ← readAttributePart
    return ⟨isHelper, tagName, names, attributes⟩

/-! ## Documents -/

/-- the content from the cursor on; `opening` is the offset of the opening brace, which has been taken off -/
def readContentFor : Nat → Option Nat → Reading (List Node)
  | 0, _ => stop .exhausted
  | n + 1, opening => do
    match ← skipSpaces with
    | none =>
      match opening with
      | some brace => failAt .missingClosingBrace brace
      | none => return []
    | some c =>
      if isQuote c then
        let value ← readLiteral
        let ns ← readContentFor n opening
        return .text value :: ns
      else if ← atComment then
        let comment ← readComment
        let ns ← readContentFor n opening
        return .comment comment.value comment.multiline :: ns
      else if c = '\x7d' ∧ opening.isSome then
        let _ ← advance
        return []
      else
        match ← readSuperCallIf opening.isSome with
        | some call =>
          let ns ← readContentFor n opening
          return .superCall call :: ns
        | none =>
          let head ← readHead
          match ← peek with
          | some '\x7b' =>
            let brace ← position
            expect '\x7b'
            let content ← readContentFor n (some brace)
            let ns ← readContentFor n opening
            return .element (head.element (some content)) :: ns
          | _ =>
            let ns ← readContentFor n opening
            return .element (head.element none) :: ns

def readLeadingCommentsFor : Nat → Reading (List Node)
  | 0 => stop .exhausted
  | n + 1 => do
    let _ ← skipSpaces
    if ← atComment then
      let comment ← readComment
      let ns ← readLeadingCommentsFor n
      return .comment comment.value comment.multiline :: ns
    else return []

def readBlockName : Reading (Option String) := do
  match ← peek with
  | some '#' =>
    expect '#'
    match ← readName .block with
    | none => fail .invalidBlockName
    | some name => return some name
  | _ => return none

def readDocument : Reading Block := do
  let comments ← readLeadingCommentsFor (← rounds)
  let name ← readBlockName
  let content ← readContentFor (← rounds) none
  return ⟨name, comments ++ content⟩

/-- read a whole source from its start on -/
def run (s : String) : Except Stop Block × Place := readDocument s.toList ⟨0, []⟩

end BlockTemplates.Cursor
