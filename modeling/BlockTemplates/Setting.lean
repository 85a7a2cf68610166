/-
Settings from environment variables. A variable is unset or holds bytes; a setting reads them as text and the text as a
value. Switches are written the way users of a shell do: `0`, `off`, `no`, `false` or nothing, and `1`, `on`, `yes`,
`true`, with blanks around.
-/
import BlockTemplates.Text.Blank
import BlockTemplates.Text.Quoted

namespace BlockTemplates.Setting

open Text

/-! ## What can be wrong -/

/-- why a text is no value of a type -/
inductive ValueError where
  | emptyNumber
  | invalidDigit
  | tooLarge
  | tooSmall
  | notTrueOrFalse
deriving DecidableEq, Repr

def ValueError.message : ValueError → String
  | .emptyNumber => "cannot parse integer from empty string"
  | .invalidDigit => "invalid digit found in string"
  | .tooLarge => "number too large to fit in target type"
  | .tooSmall => "number too small to fit in target type"
  | .notTrueOrFalse => "provided string was not \x60true\x60 or \x60false\x60"

inductive SettingError where
  /-- the bytes of the variable are no text -/
  | notText (name : String) (contents : ByteArray)
  | notValue (name contents : String) (cause : ValueError)
  | notSwitch (text : String)
  | variableNotSwitch (name text : String)

def SettingError.message : SettingError → String
  | .notText name contents =>
    "could not decode " ++ quoted name ++ " env var: environment variable was not valid unicode: " ++
      quotedBytes contents
  | .notValue name contents cause =>
    "could not parse " ++ quoted name ++ " env var with contents " ++ quoted contents ++ ": " ++ cause.message
  | .notSwitch text => "not a boolean value: " ++ quoted text
  | .variableNotSwitch name text => quoted name ++ " env var: not a boolean value: " ++ quoted text

/-! ## Values -/

/-- any text is one -/
def textValue (s : String) : Except ValueError String := .ok s

def boolValue (s : String) : Except ValueError Bool :=
  if s = "true" then .ok true else if s = "false" then .ok false else .error .notTrueOrFalse

/-- the number whose digits so far denote `n` and continue with `digits`; the first digit that leads out of the range
is an error even if what follows is no digit -/
def digitsFrom (low high : Int) (negative : Bool) (n : Int) : List Char → Except ValueError Int
  | [] => .ok n
  | c :: digits =>
    if c.isDigit then
      let d : Int := c.toNat - '0'.toNat
      let m := if negative then 10 * n - d else 10 * n + d
      if high < m then .error .tooLarge
      else if m < low then .error .tooSmall
      else digitsFrom low high negative m digits
    else .error .invalidDigit

/-- an integer between two bounds; a minus sign is known only where there are negative numbers -/
def intValue (low high : Int) (s : String) : Except ValueError Int :=
  match s.toList with
  | [] => .error .emptyNumber
  | '+' :: [] | '-' :: [] => .error .invalidDigit
  | '+' :: digits => digitsFrom low high false 0 digits
  | '-' :: digits => if low < 0 then digitsFrom low high true 0 digits else .error .invalidDigit
  | digits => digitsFrom low high false 0 digits

/-- an integer of 64 bits -/
def wordValue : String → Except ValueError Int := intValue (-9223372036854775808) 9223372036854775807

/-- a natural number of 8 bits -/
def byteValue : String → Except ValueError Int := intValue 0 255

/-! ## Settings -/

/-- the value of a variable, none if it is not set -/
def read {α : Type} (value : String → Except ValueError α) (name : String) (contents : Option ByteArray) :
    Except SettingError (Option α) :=
  match contents with
  | none => .ok none
  | some bytes =>
    match String.fromUTF8? bytes with
    | none => .error (.notText name bytes)
    | some text =>
      match value text with
      | .ok a => .ok (some a)
      | .error cause => .error (.notValue name text cause)

/-- whether a text turns a switch on or off -/
def switchText? (s : String) : Option Bool :=
  let word := String.ofList (trim s.toList)
  if word ∈ ["0", "", "off", "false", "no"] then some false
  else if word ∈ ["1", "on", "true", "yes"] then some true
  else none

def parseSwitch (s : String) : Except SettingError Bool :=
  match switchText? s with
  | some b => .ok b
  | none => .error (.notSwitch s)

/-- a switch, off if the variable is not set -/
def readSwitch (name : String) (contents : Option ByteArray) : Except SettingError Bool :=
  match read textValue name contents with
  | .error e => .error e
  | .ok none => .ok false
  | .ok (some text) =>
    match switchText? text with
    | some b => .ok b
    | none => .error (.variableNotSwitch name text)

/-! ## Tracing -/

/-- the variable that turns tracing on -/
def traceVariable : String := "BEMPLATE_TRACE"

/-- whether tracing starts on, and what is said about contents that do not tell -/
def readTrace (contents : Option ByteArray) : Bool × String :=
  match readSwitch traceVariable contents with
  | .ok b => (b, "")
  | .error e => (false, "W: ignoring " ++ traceVariable ++ ": " ++ e.message ++ "\n")

end BlockTemplates.Setting
