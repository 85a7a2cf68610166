/-
Sizes of texts in UTF-8 bytes, and cutting a text at a byte offset. A position in a source is a number of bytes; a
cut inside a character is moved back to the character's start.

Main statements: `takeBytes_append_dropBytes` (a cut loses nothing) and `dropBytes_byteSize_append` (a cut after a
text that stands in front leaves exactly what follows it).
-/

namespace BlockTemplates.Text

/-- bytes that the text takes in UTF-8 -/
def byteSize (s : List Char) : Nat := s.foldr (fun c n => c.utf8Size + n) 0

/-- the text from byte `n` on -/
def dropBytes : Nat → List Char → List Char
  | _, [] => []
  | n, c :: s => if c.utf8Size ≤ n then dropBytes (n - c.utf8Size) s else c :: s

/-- the text before byte `n` -/
def takeBytes : Nat → List Char → List Char
  | _, [] => []
  | n, c :: s => if c.utf8Size ≤ n then c :: takeBytes (n - c.utf8Size) s else []

@[simp] theorem byteSize_nil : byteSize [] = 0 := rfl

@[simp] theorem byteSize_cons (c : Char) (s : List Char) : byteSize (c :: s) = c.utf8Size + byteSize s := rfl

@[simp] theorem byteSize_append (s t : List Char) : byteSize (s ++ t) = byteSize s + byteSize t := by
  induction s with
  | nil => simp
  | cons c s ih => simp [ih, Nat.add_assoc]

theorem takeBytes_append_dropBytes (n : Nat) (s : List Char) : takeBytes n s ++ dropBytes n s = s := by
  induction s generalizing n with
  | nil => rfl
  | cons c s ih =>
    simp only [takeBytes, dropBytes]
    split
    · simp [ih]
    · rfl

/-- cutting after a text that stands in front gives that text back -/
theorem takeBytes_byteSize_append (s t : List Char) : takeBytes (byteSize s) (s ++ t) = s := by
  induction s with
  | nil =>
    cases t with
    | nil => rfl
    | cons c t =>
      have := Char.utf8Size_pos c
      simp only [byteSize_nil, List.nil_append, takeBytes]
      rw [if_neg (by omega)]
  | cons c s ih => simp [takeBytes, ih]

/-- and leaves what follows it -/
theorem dropBytes_byteSize_append (s t : List Char) : dropBytes (byteSize s) (s ++ t) = t := by
  have h := takeBytes_append_dropBytes (byteSize s) (s ++ t)
  rw [takeBytes_byteSize_append] at h
  exact List.append_cancel_left h

end BlockTemplates.Text
