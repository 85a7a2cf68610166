/-
What can be wrong with a tree that is compiled.
-/

namespace BlockTemplates

/-- the two places of a super call -/
inductive SuperPlace where
  | content
  | attributes
deriving DecidableEq, Repr

def SuperPlace.construct : SuperPlace → String
  | .content => "super!"
  | .attributes => "attribute super!"

inductive CompileError where
  | missingBlockName
  | superWithoutParent (place : SuperPlace)
  | undefinedSuperTarget (name : String)
  | superOutsideElement
  | anonymousAttributeSuper
  | unresolvedHelperName
  | undefinedHelper (name : String)
  | recursiveElement (name : String)
  /-- helpers keep returning helper elements -/
  | expansionTooDeep
deriving DecidableEq, Repr

def CompileError.message : CompileError → String
  | .missingBlockName => "element class tokens need a block name, which the root template lacks"
  | .superWithoutParent place => place.construct ++ " requires a parent template"
  | .undefinedSuperTarget name => "super call for element \"" ++ name ++ "\", which no ancestor template defines"
  | .superOutsideElement => "super! outside of any named element"
  | .anonymousAttributeSuper =>
    "super! in the attributes of an element without name needs an explicit element name"
  | .unresolvedHelperName => "helper element without a resolvable helper name"
  | .undefinedHelper name => "helper \"" ++ name ++ "\" is not defined"
  | .recursiveElement name => "element \"" ++ name ++ "\" would end up containing itself"
  | .expansionTooDeep => "helpers are expanded too deeply"

end BlockTemplates
