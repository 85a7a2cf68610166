/-
Boundaries of characters. A byte offset in a text is a boundary if whole characters stand before it; these are the
offsets at which a text can be cut.

Main statements: `isBoundary_iff_isValid` (the core library's valid positions), `cut?_eq_some` (a cut gives the two
parts, and there is none elsewhere) and `findChar?_eq` (a search finds the size of what stands before).
-/
import BlockTemplates.Text.Size

namespace BlockTemplates.Text

/-! ## Sizes of strings -/

theorem byteSize_toList (s : String) : byteSize s.toList = s.utf8ByteSize := by
  have hofList (cs : List Char) : byteSize cs = (String.ofList cs).utf8ByteSize := by
    induction cs with
    | nil => rfl
    | cons c cs ih =>
      have hcons : String.ofList (c :: cs) = String.singleton c ++ String.ofList cs := by
        rw [String.singleton_eq_ofList, ← String.ofList_append]
        rfl
      rw [byteSize_cons, ih, hcons, String.utf8ByteSize_append, String.utf8ByteSize_singleton]
  rw [hofList, String.ofList_toList]

/-! ## Boundaries -/

/-- whole characters stand before the offset -/
def IsBoundary (s : List Char) (n : Nat) : Prop := ∃ before after, s = before ++ after ∧ byteSize before = n

theorem isBoundary_append (before after : List Char) : IsBoundary (before ++ after) (byteSize before) :=
  ⟨before, after, rfl, rfl⟩

theorem IsBoundary.le {s : List Char} {n : Nat} (h : IsBoundary s n) : n ≤ byteSize s := by
  obtain ⟨before, after, rfl, rfl⟩ := h
  rw [byteSize_append]
  omega

theorem isBoundary_iff_isValid {s : String} {n : Nat} :
    IsBoundary s.toList n ↔ (String.Pos.Raw.mk n).IsValid s := by
  rw [String.Pos.Raw.isValid_iff_exists_append]
  constructor
  · rintro ⟨before, after, hs, rfl⟩
    refine ⟨String.ofList before, String.ofList after, ?_, ?_⟩
    · rw [← String.ofList_append, ← hs, String.ofList_toList]
    · have := byteSize_toList (String.ofList before)
      rw [String.toList_ofList] at this
      rw [this]
      rfl
  · rintro ⟨before, after, rfl, h⟩
    refine ⟨before.toList, after.toList, String.toList_append, ?_⟩
    rw [byteSize_toList]
    exact (congrArg String.Pos.Raw.byteIdx h).symm

/-! ## Cuts -/

/-- the parts before and after a byte offset, if it is a boundary -/
def cut? : Nat → List Char → Option (List Char × List Char)
  | 0, s => some ([], s)
  | _ + 1, [] => none
  | n + 1, c :: s =>
    if c.utf8Size ≤ n + 1 then (cut? (n + 1 - c.utf8Size) s).map fun p => (c :: p.1, p.2) else none

theorem cut?_zero (s : List Char) : cut? 0 s = some ([], s) := by cases s <;> rfl

theorem cut?_byteSize_append (s t : List Char) : cut? (byteSize s) (s ++ t) = some (s, t) := by
  induction s with
  | nil => exact cut?_zero t
  | cons c s ih =>
    obtain ⟨n, hn⟩ := Nat.exists_eq_succ_of_ne_zero (Nat.pos_iff_ne_zero.1 c.utf8Size_pos)
    have hsize : byteSize (c :: s) = (n + byteSize s) + 1 := by
      rw [byteSize_cons, hn]
      omega
    have hdrop : n + byteSize s + 1 - c.utf8Size = byteSize s := by omega
    rw [hsize, List.cons_append, cut?, if_pos (by omega), hdrop, ih]
    rfl

theorem cut?_eq_some {n : Nat} {s before after : List Char} :
    cut? n s = some (before, after) ↔ s = before ++ after ∧ byteSize before = n := by
  constructor
  · intro h
    fun_induction cut? n s generalizing before after with
    | case1 s =>
      obtain ⟨rfl, rfl⟩ := Prod.mk.inj (Option.some.inj h)
      exact ⟨rfl, rfl⟩
    | case2 => contradiction
    | case3 n c s hle ih =>
      obtain ⟨p, hcut, heq⟩ := Option.map_eq_some_iff.1 h
      obtain ⟨rfl, rfl⟩ := Prod.mk.inj heq
      obtain ⟨hs, hsize⟩ := ih hcut
      refine ⟨congrArg (c :: ·) hs, ?_⟩
      rw [byteSize_cons]
      omega
    | case4 => contradiction
  · rintro ⟨rfl, rfl⟩
    exact cut?_byteSize_append before after

/-! ## Searches -/

/-- the offset of the first character of a class -/
def findChar? (p : Char → Bool) : List Char → Option Nat
  | [] => none
  | c :: s => if p c then some 0 else (findChar? p s).map (c.utf8Size + ·)

/-- the offset of the first place at which a text stands -/
def findText? (t : List Char) : List Char → Option Nat
  | [] => if t.isEmpty then some 0 else none
  | c :: s => if t.isPrefixOf (c :: s) then some 0 else (findText? t s).map (c.utf8Size + ·)

theorem findChar?_eq (p : Char → Bool) (s : List Char) :
    findChar? p s = if s.dropWhile (!p ·) = [] then none else some (byteSize (s.takeWhile (!p ·))) := by
  induction s with
  | nil => rfl
  | cons c s ih =>
    unfold findChar?
    by_cases hc : p c = true
    · simp [hc]
    · rw [if_neg hc, ih, List.dropWhile_cons_of_pos (by simpa using hc), List.takeWhile_cons_of_pos (by simpa using hc)]
      split
      · rfl
      · rfl

end BlockTemplates.Text
