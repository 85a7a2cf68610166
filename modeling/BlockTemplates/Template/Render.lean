/-
Rendering. The operations of the root are carried out on behalf of the template that is rendered, the leaf: elements and
their contents are looked up from the leaf, the contents of super calls from the parent of the level that holds the
call. The depth of nesting is limited by a number that no template which compiled can exceed.
-/
import BlockTemplates.Template.Level

namespace BlockTemplates

open Render

/-- what cannot happen to a template that compiled -/
inductive RenderError where
  | undefinedElement (name : String)
  | tooDeep
deriving DecidableEq, Repr

def RenderError.message : RenderError → String
  | .undefinedElement name => "element \"" ++ name ++ "\" is not defined"
  | .tooDeep => "elements are nested too deeply"

/-- the part of the chain and the operations that an operation invokes, if it invokes any and they are defined -/
def target? (leaf owner : List Level) : Op → Option (List Level × List Op)
  | .literal _ | .elementClasses _ => none
  | .invokeElement name => (findBody name leaf).map fun p => (p.1, p.2.render)
  | .invokeContent name => (findBody name leaf).map fun p => (p.1, p.2.content)
  | .superContent name => (findBody name owner.tail).map fun p => (p.1, p.2.content)

/-- the prefixes of the leaf -/
def leafPrefixes (leaf : List Level) : List String := (leaf.head?.map (·.prefixes)).getD []

/-- what one operation writes; `invoked` carries out the operations that it invokes -/
def write (leaf owner : List Level) (invoked : List Level → List Op → Except RenderError String) (op : Op) :
    Except RenderError String :=
  match op with
  | .literal text => .ok text
  | .elementClasses names => .ok (classTokens (leafPrefixes leaf) names)
  | .invokeElement name | .invokeContent name | .superContent name =>
    match target? leaf owner op with
    | some (level, ops) => invoked level ops
    | none => .error (.undefinedElement name)

/-- carry out operations that belong to the level `owner` starts with, with invocations nested at most `depth` deep -/
def run (leaf : List Level) : Nat → List Level → List Op → Except RenderError String
  | 0, owner, ops => (ops.mapM (write leaf owner fun _ _ => .error .tooDeep)).map String.join
  | depth + 1, owner, ops => (ops.mapM (write leaf owner (run leaf depth))).map String.join

/-- the markup of a template -/
def Template.render (t : Template) : Except RenderError String := run t.chain t.depthBound t.rootOwner t.rootOps

end BlockTemplates
