/-
Names in a source, and the super call. A name is an identifier: a letter, for elements and attributes also an
underscore, then letters, digits, hyphens and underscores. Tags and attributes may have a namespace before it,
`ns:name`; where no identifier follows the colon, the name ends before the colon.

Main statements: `longest_isPrefix` (a name is a front part of the text) and `readName_eq_some` (reading a name takes
exactly that part away).
-/
import BlockTemplates.Markup.Tree

namespace BlockTemplates.Source

open Markup

/-! ## Kinds of names -/

inductive NameKind where
  | block
  | tag
  | element
  | attr
deriving DecidableEq, Repr

/-- whether an underscore can be the first character -/
def NameKind.underscoreFirst : NameKind → Bool
  | .block | .tag => false
  | .element | .attr => true

/-- whether a namespace can stand before the name -/
def NameKind.namespaced : NameKind → Bool
  | .block | .element => false
  | .tag | .attr => true

/-- the first character of an identifier -/
def NameKind.isFirst (k : NameKind) (c : Char) : Bool := c.isAlpha || (k.underscoreFirst && c == '_')

/-- the other characters of an identifier -/
def isNameChar (c : Char) : Bool := c.isAlphanum || c == '-' || c == '_'

/-! ## The longest name -/

/-- the longest identifier at the front, empty if there is none -/
def ident (k : NameKind) : List Char → List Char
  | [] => []
  | c :: s => if k.isFirst c then c :: s.takeWhile isNameChar else []

/-- the colon and the identifier behind a namespace, empty if they are not there -/
def afterNamespace (k : NameKind) : List Char → List Char
  | ':' :: s => if (ident k s).isEmpty then [] else ':' :: ident k s
  | _ => []

/-- the longest name of a kind at the front, empty if there is none -/
def NameKind.longest (k : NameKind) (s : List Char) : List Char :=
  let first := ident k s
  if k.namespaced && !first.isEmpty then first ++ afterNamespace k (s.drop first.length) else first

theorem ident_isPrefix (k : NameKind) (s : List Char) : ident k s <+: s := by
  cases s with
  | nil => exact List.nil_prefix
  | cons c s =>
    simp only [ident]
    split
    · exact List.cons_prefix_cons.2 ⟨rfl, List.takeWhile_prefix _⟩
    · exact List.nil_prefix

theorem afterNamespace_isPrefix (k : NameKind) (s : List Char) : afterNamespace k s <+: s := by
  unfold afterNamespace
  split
  · split
    · exact List.nil_prefix
    · exact List.cons_prefix_cons.2 ⟨rfl, ident_isPrefix k _⟩
  · exact List.nil_prefix

theorem longest_isPrefix (k : NameKind) (s : List Char) : k.longest s <+: s := by
  simp only [NameKind.longest]
  split
  · obtain ⟨t, ht⟩ := ident_isPrefix k s
    have hd : s.drop (ident k s).length = t := by
      have := @List.drop_left _ (ident k s) t
      rwa [ht] at this
    obtain ⟨u, hu⟩ := afterNamespace_isPrefix k t
    exact ⟨u, by rw [hd, List.append_assoc, hu, ht]⟩
  · exact ident_isPrefix k s

/-! ## Reading -/

/-- take a name of the given kind off the text -/
def readName (k : NameKind) (s : List Char) : Option (String × List Char) :=
  match k.longest s with
  | [] => none
  | name => some (String.ofList name, s.drop name.length)

theorem readName_eq_some {k : NameKind} {s r : List Char} {n : String} (h : readName k s = some (n, r)) :
    n.toList = k.longest s ∧ n.toList ≠ [] ∧ s = n.toList ++ r := by
  unfold readName at h
  split at h
  · simp at h
  · rename_i hne
    simp only [Option.some.injEq, Prod.mk.injEq] at h
    obtain ⟨rfl, rfl⟩ := h
    obtain ⟨t, ht⟩ := longest_isPrefix k s
    refine ⟨by simp, by simpa using hne, ?_⟩
    have hd := @List.drop_left _ (k.longest s) t
    rw [ht] at hd
    rw [String.toList_ofList, hd, ht]

/-- take `super!` or `super.name!` off the text -/
def readSuperCall : List Char → Option (SuperCall × List Char)
  | 's' :: 'u' :: 'p' :: 'e' :: 'r' :: '!' :: s => some (⟨none⟩, s)
  | 's' :: 'u' :: 'p' :: 'e' :: 'r' :: '.' :: s =>
    match readName .element s with
    | some (name, '!' :: r) => some (⟨some name⟩, r)
    | _ => none
  | _ => none

/-- characters that a super call takes in the source -/
def superCallLength (c : SuperCall) : Nat :=
  match c.elementName with
  | none => 6
  | some name => 7 + name.length

theorem readSuperCall_length {s r : List Char} {c : SuperCall} (h : readSuperCall s = some (c, r)) :
    s.length = superCallLength c + r.length := by
  unfold readSuperCall at h
  split at h
  · simp only [Option.some.injEq, Prod.mk.injEq] at h
    obtain ⟨rfl, rfl⟩ := h
    simp [superCallLength]; omega
  · split at h
    · rename_i name t hn
      simp only [Option.some.injEq, Prod.mk.injEq] at h
      obtain ⟨rfl, rfl⟩ := h
      have := congrArg List.length (readName_eq_some hn).2.2
      simp [superCallLength, String.length_toList] at this ⊢; omega
    · simp at h
  · simp at h

end BlockTemplates.Source
