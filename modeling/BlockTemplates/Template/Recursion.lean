/-
The check that rendering ends. Operations are followed the way rendering does, except that an element is followed only
once. An element that is invoked while it is being followed would contain itself.
-/
import BlockTemplates.Template.Render

namespace BlockTemplates

open Render

/-- what keeps operations from being followed to their end -/
inductive Obstacle where
  /-- an element that contains itself -/
  | recursive (name : String)
  /-- a path that is longer than the depth -/
  | depth
deriving DecidableEq, Repr

/-- follow operations. `active` are the elements that are being followed, the innermost first, `done` those that were
followed to their end. The result is `done` afterwards. -/
def follow (leaf : List Level) :
    Nat → List Level → List String → List Op → List String → Except Obstacle (List String)
  | 0, _, _, _, _ => .error .depth
  | depth + 1, owner, active, ops, done =>
    ops.foldlM (fun done op =>
      match op with
      | .invokeElement name =>
        if name ∈ done then .ok done
        else if name ∈ active then .error (.recursive name)
        else
          match target? leaf owner op with
          | some (level, ops) => (follow leaf depth level (name :: active) ops done).map (name :: ·)
          | none => .ok (name :: done)
      | op =>
        match target? leaf owner op with
        | some (level, ops) => follow leaf depth level active ops done
        | none => .ok done) done

/-- an element that would contain itself; no path is longer than the depth that is allowed here -/
def Template.recursiveElement? (t : Template) : Option String :=
  match follow t.chain (t.depthBound + 1) t.rootOwner [] t.rootOps [] with
  | .error (.recursive name) => some name
  | .ok _ | .error .depth => none

end BlockTemplates
