/-
Render operations. A compiled template is made of lists of these. Literals are markup as it is written; the class tokens
depend on the template that is rendered; elements and contents are looked up by name when they are rendered.

A `Buffer` collects operations and keeps literals merged: no literal in it is empty and no two stand side by side.

Main statements: `toList_push` and `toList_pushText` (what an operation does to the list collected so far).
-/
import BlockTemplates.Html.Escape

namespace BlockTemplates.Render

open Html

/-! ## Operations -/

inductive Op where
  /-- markup -/
  | literal (text : String)
  /-- the class tokens of these element names -/
  | elementClasses (names : List String)
  /-- an element, looked up from the template that is rendered -/
  | invokeElement (name : String)
  /-- the content of an element, looked up from the template that is rendered -/
  | invokeContent (name : String)
  /-- the content of an element, looked up from the parent of the template that holds the operation -/
  | superContent (name : String)
deriving DecidableEq, Repr

/-- one token for each name and each prefix, names first, separated by spaces -/
def classTokens (prefixes names : List String) : String :=
  " ".intercalate (names.flatMap fun name => prefixes.map fun p => escapeAttribute p ++ escapeAttribute name)

/-! ## Buffers -/

/-- collected operations, the last one first -/
structure Buffer where
  reversed : List Op := []
deriving DecidableEq, Repr

namespace Buffer

/-- the operations in their order -/
def toList (b : Buffer) : List Op := b.reversed.reverse

/-- add markup, to the literal at the end if there is one -/
def pushText (b : Buffer) (text : String) : Buffer :=
  if text = "" then b
  else
    match b.reversed with
    | .literal last :: ops => ⟨.literal (last ++ text) :: ops⟩
    | ops => ⟨.literal text :: ops⟩

def push (b : Buffer) : Op → Buffer
  | .literal text => b.pushText text
  | op => ⟨op :: b.reversed⟩

def pushAll (b : Buffer) (ops : List Op) : Buffer := ops.foldl push b

/-- the buffer after pushing the given operations -/
def ofList (ops : List Op) : Buffer := pushAll {} ops

def size (b : Buffer) : Nat := b.reversed.length

def isEmpty (b : Buffer) : Bool := b.reversed.isEmpty

/-- whether there is nothing but element invocations -/
def onlyInvocations (b : Buffer) : Bool :=
  b.reversed.all fun
    | .invokeElement _ => true
    | _ => false

@[simp] theorem pushText_empty (b : Buffer) : b.pushText "" = b := rfl

theorem toList_pushText {b : Buffer} {text : String} (ht : text ≠ "")
    (hb : ∀ last, b.toList.getLast? ≠ some (.literal last)) :
    (b.pushText text).toList = b.toList ++ [.literal text] := by
  obtain ⟨ops⟩ := b
  simp only [pushText, if_neg ht]
  split
  · rename_i last rest
    exact absurd (by simp [toList]) (hb last)
  · simp [toList]

theorem toList_pushText_literal {b : Buffer} {text last : String} {ops : List Op} (ht : text ≠ "")
    (hb : b.toList = ops ++ [.literal last]) : (b.pushText text).toList = ops ++ [.literal (last ++ text)] := by
  obtain ⟨rev⟩ := b
  have hr : rev = .literal last :: ops.reverse := by
    have := congrArg List.reverse hb
    simpa [toList] using this
  subst hr
  simp [pushText, if_neg ht, toList]

theorem toList_push {b : Buffer} {op : Op} (h : ∀ text, op ≠ .literal text) :
    (b.push op).toList = b.toList ++ [op] := by
  cases op with
  | literal text => exact absurd rfl (h text)
  | _ => simp [push, toList]

end Buffer

end BlockTemplates.Render
