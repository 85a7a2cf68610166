/-
What compiling reports while it runs. Warnings are always shown, the other events only when tracing is on; each takes
one line. A warning ends with the place in the program that gives it. That place is a fact about a build of the program,
so that a log is given the places, and leaves out those that it is not given.
-/
import BlockTemplates.Text.Quoted

namespace BlockTemplates

open Text

inductive Event where
  /-- a document is begun; the names are its block names -/
  | compiling (names : String) (prefixes : List String)
  | namedElement (name tag : String)
  | expandingHelper (name : String)
  | duplicateElement (name : String)
  | topLevelIgnored (names : String)
deriving DecidableEq, Repr

namespace Event

/-- whether the event is shown without tracing -/
def isWarning : Event → Bool
  | .duplicateElement _ | .topLevelIgnored _ => true
  | _ => false

def message : Event → String
  | .compiling names prefixes => "compiling template \"" ++ names ++ "\", prefixes " ++ quotedList prefixes
  | .namedElement name tag => "element \"" ++ name ++ "\" <" ++ tag ++ ">"
  | .expandingHelper name => "expanding helper \"" ++ name ++ "\""
  | .duplicateElement name =>
    "element \"" ++ name ++ "\" is defined more than once in the same template, using the last definition"
  | .topLevelIgnored names =>
    "ignoring top level markup in template \"" ++ names ++ "\", which extends another template"

/-- a line in the text of the program -/
structure Origin where
  file : String
  line : Nat
deriving DecidableEq, Repr

/-- how a warning ends -/
def Origin.text (o : Origin) : String := " at " ++ quoted o.file ++ " line " ++ toString o.line

def line (origin? : Event → Option Origin) (e : Event) : String :=
  if e.isWarning then "W: " ++ e.message ++ ((origin? e).map Origin.text).getD "" ++ "\n"
  else "T: " ++ e.message ++ "\n"

/-- what is shown of a run -/
def log (tracing : Bool) (events : List Event) (origin? : Event → Option Origin := fun _ => none) : String :=
  String.join ((events.filter fun e => tracing || e.isWarning).map (line origin?))

end Event

end BlockTemplates
