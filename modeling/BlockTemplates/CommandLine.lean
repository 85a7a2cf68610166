/-
The command line. Every file is compiled as an extension of the one before it, the first as a root; the last one is
rendered, or its tree is printed. Everything is done before anything is written, so that a failure writes no output.

How arguments are read, how the failure is reported that ends a run and how JSON is laid out is left to libraries. They
are parameters of a run, as are the places in the program that its warnings tell; `Libraries.own` are the ones that the
program runs with here.
-/
import BlockTemplates.Json.Printer
import BlockTemplates.Markup.Json
import BlockTemplates.Setting
import BlockTemplates.Source.Document
import BlockTemplates.Template.Compile

namespace BlockTemplates.CommandLine

open Markup Source Text

/-! ## What a run is given and what it leaves -/

structure Arguments where
  /-- for the last file, in place of the block name it declares -/
  blockNames : List String := []
  /-- print the tree of the last file -/
  dumpTree : Bool := false
  trace : Bool := false
  files : List String := []
deriving DecidableEq, Repr

/-- what a run sees of the system -/
structure System where
  /-- the contents of a file, or why it cannot be read -/
  contents : String → Except String ByteArray
  /-- the variable that turns tracing on -/
  traceVariable : Option ByteArray := none

/-- what a run leaves -/
structure Outcome where
  exitCode : Nat
  output : String := ""
  errors : String := ""
deriving DecidableEq, Repr

/-- what the arguments ask for -/
inductive Request where
  | run (arguments : Arguments)
  /-- nothing but this, which is help or says that the arguments cannot be understood -/
  | ended (outcome : Outcome)
deriving DecidableEq, Repr

/-- what the program is built with -/
structure Libraries where
  request : List String → Request
  /-- how the failure is reported that ends a run, from what was being done and its cause -/
  report : String → String → String
  /-- a JSON value over several lines -/
  pretty : Json → String
  /-- where in the program a warning is from -/
  origin? : Event → Option Event.Origin := fun _ => none

/-! ## Failures -/

/-- why a run has no output -/
inductive Failure where
  | reading (file cause : String)
  | parsing (file : String) (error : ParseError)
  | compiling (file : String) (error : CompileError)
  | rendering (error : RenderError)

/-- what was being done -/
def Failure.context : Failure → String
  | .reading file _ => "reading " ++ quoted file
  | .parsing file _ => "parsing " ++ quoted file
  | .compiling file _ => "compiling " ++ quoted file
  | .rendering _ => "rendering"

def Failure.cause : Failure → String
  | .reading _ cause => cause
  | .parsing _ e => e.message
  | .compiling _ e => e.message
  | .rendering e => e.message

/-! ## Running -/

/-- how far a run has come -/
structure Progress where
  template : Option Template := none
  /-- whether tracing is on; the variable is looked at when this is first asked -/
  tracing : Option Bool := none
  errors : String := ""

/-- the progress with tracing decided -/
def Progress.decideTracing (p : Progress) (system : System) : Progress :=
  match p.tracing with
  | some _ => p
  | none =>
    let (on, warning) := Setting.readTrace system.traceVariable
    { p with tracing := some on, errors := p.errors ++ warning }

/-- the progress before the first file -/
def Progress.start (system : System) (a : Arguments) : Progress :=
  if a.trace then { Progress.decideTracing {} system with tracing := some true } else {}

/-- the tree of a file -/
def load (system : System) (file : String) : Except Failure Block :=
  match system.contents file with
  | .error cause => .error (.reading file cause)
  | .ok bytes =>
    match String.fromUTF8? bytes with
    | none => .error (.reading file "stream did not contain valid UTF-8")
    | some source =>
      match parse source with
      | .error e => .error (.parsing file e)
      | .ok block => .ok block

/-- the output for the last template -/
def outputOf (template : Option Template) : Except Failure String :=
  match template with
  | none => .ok ""
  | some t =>
    match t.render with
    | .ok html => .ok (html ++ "\n")
    | .error e => .error (.rendering e)

/-- go on with the given files -/
def runFiles (lib : Libraries) (system : System) (a : Arguments) (p : Progress) :
    List String → String × Except Failure String
  | [] => (p.errors, outputOf p.template)
  | file :: files =>
    match load system file with
    | .error f => (p.errors, .error f)
    | .ok block =>
      if files.isEmpty && a.dumpTree then (p.errors, .ok (lib.pretty block.toJson ++ "\n"))
      else
        let p := p.decideTracing system
        let c := compile block p.template { blockNames := if files.isEmpty then a.blockNames else [] }
        let errors := p.errors ++ Event.log (p.tracing.getD false) c.events lib.origin?
        match c.result with
        | .error e => (errors, .error (.compiling file e))
        | .ok t => runFiles lib system a { p with template := some t, errors := errors } files

/-- a whole run -/
def runWith (lib : Libraries) (system : System) (args : List String) : Outcome :=
  match lib.request args with
  | .ended outcome => outcome
  | .run a =>
    match runFiles lib system a (.start system a) a.files with
    | (errors, .ok output) => ⟨0, output, errors⟩
    | (errors, .error f) => ⟨1, "", errors ++ lib.report f.context f.cause⟩

/-! ## The libraries at hand -/

def helpText : String :=
  "USAGE:\n    [--block-name <NAME>]... [--dump-tree] [--trace] <FILES>...\n\n" ++
  "Renders templates to HTML. The first file is the root template, each further file extends the one before it;\n" ++
  "the last one is rendered.\n\n" ++
  "    --block-name <NAME>    the block name of the last file, in place of the one it declares; repeatable\n" ++
  "    --dump-tree            print the tree of the last file as JSON instead\n" ++
  "    --trace                show what is compiled\n"

/-- the arguments cannot be understood -/
def misuse : Request := .ended ⟨2, "", helpText⟩

/-- whether an argument can only be an option; a lone hyphen is not one -/
def looksLikeOption (arg : String) : Bool :=
  match arg.toList with
  | '-' :: _ :: _ => true
  | _ => false

/-- the value behind an equals sign -/
def valueOf? (option arg : String) : Option String :=
  let front := (option ++ "=").toList
  if front.isPrefixOf arg.toList then some (String.ofList (arg.toList.drop front.length)) else none

/-- continue reading arguments -/
def requestFrom (a : Arguments) : List String → Request
  | [] => if a.files.isEmpty then misuse else .run a
  | "--" :: files => if (a.files ++ files).isEmpty then misuse else .run { a with files := a.files ++ files }
  | "--help" :: _ | "-h" :: _ => .ended ⟨0, helpText, ""⟩
  | "--dump-tree" :: args => if a.dumpTree then misuse else requestFrom { a with dumpTree := true } args
  | "--trace" :: args => if a.trace then misuse else requestFrom { a with trace := true } args
  | ["--block-name"] => misuse
  | "--block-name" :: name :: args =>
    if looksLikeOption name then misuse else requestFrom { a with blockNames := a.blockNames ++ [name] } args
  | arg :: args =>
    match valueOf? "--block-name" arg with
    | some name => requestFrom { a with blockNames := a.blockNames ++ [name] } args
    | none => if looksLikeOption arg then misuse else requestFrom { a with files := a.files ++ [arg] } args

def request (args : List String) : Request := requestFrom {} args

/-- four spaces in front of every line -/
def indented (text : String) : String :=
  String.ofList ("    ".toList ++ text.toList.flatMap fun c => if c = '\n' then "\n    ".toList else [c])

def report (context cause : String) : String :=
  "Error: " ++ context ++ "\n\nCaused by:\n" ++ indented cause ++ "\n"

def Libraries.own : Libraries where
  request := CommandLine.request
  report := CommandLine.report
  pretty := Json.pretty

/-- a whole run with the libraries at hand -/
def run : System → List String → Outcome := runWith .own

end BlockTemplates.CommandLine
