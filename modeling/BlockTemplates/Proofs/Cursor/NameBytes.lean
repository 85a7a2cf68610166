/-
Names by bytes. A name consists of characters of one byte, so it can be measured in the UTF-8 form of a text without
regard to its characters: a byte of a longer character is no letter, digit, hyphen or underscore.

Main statement: `nameLength_utf8` (the measure is the size of the longest name).
-/
import BlockTemplates.Proofs.Text.Boundaries
import BlockTemplates.Proofs.Layout.Words

namespace BlockTemplates.Cursor

open Text Source

/-! ## The measure -/

/-- the text in UTF-8 -/
def utf8 (s : List Char) : List UInt8 := s.flatMap String.utf8EncodeChar

def isLetterByte (b : UInt8) : Bool := (65 ≤ b && b ≤ 90) || (97 ≤ b && b ≤ 122)

def isNameByte (b : UInt8) : Bool := isLetterByte b || (48 ≤ b && b ≤ 57) || b == 45 || b == 95

def isFirstByte (k : NameKind) (b : UInt8) : Bool := isLetterByte b || (k.underscoreFirst && b == 95)

/-- bytes of the identifier at the front, zero if there is none -/
def identLength (k : NameKind) : List UInt8 → Nat
  | [] => 0
  | b :: bs => if isFirstByte k b then 1 + (bs.takeWhile isNameByte).length else 0

/-- bytes of the name at the front, zero if there is none -/
def nameLength (k : NameKind) (bs : List UInt8) : Nat :=
  let first := identLength k bs
  if 0 < first ∧ k.namespaced = true ∧ bs[first]? = some 58 then
    let second := identLength k (bs.drop (first + 1))
    if 0 < second then first + 1 + second else first
  else first

/-! ## Characters of one byte -/

theorem utf8EncodeChar_ascii {c : Char} (h : c.toNat < 128) : String.utf8EncodeChar c = [UInt8.ofNat c.toNat] := by
  have hv : c.val.toNat ≤ 127 := Nat.le_of_lt_succ h
  unfold String.utf8EncodeChar
  exact if_pos hv

/-- the first byte of a longer character is none of the first 128 -/
theorem utf8EncodeChar_wide {c : Char} (h : 128 ≤ c.toNat) :
    ∃ b bs, String.utf8EncodeChar c = b :: bs ∧ 128 ≤ b.toNat := by
  have hv : ¬ c.val.toNat ≤ 127 := Nat.not_le.2 h
  unfold String.utf8EncodeChar
  dsimp only
  rw [if_neg hv]
  split
  · exact ⟨_, _, rfl, by simp; omega⟩
  · split
    · exact ⟨_, _, rfl, by simp; omega⟩
    · exact ⟨_, _, rfl, by simp; omega⟩

theorem utf8_cons (c : Char) (s : List Char) : utf8 (c :: s) = String.utf8EncodeChar c ++ utf8 s := List.flatMap_cons

theorem utf8Size_ascii {c : Char} (h : c.toNat < 128) : c.utf8Size = 1 := by
  rw [← String.length_utf8EncodeChar, utf8EncodeChar_ascii h]
  rfl

theorem byteSize_ascii {s : List Char} (h : ∀ c ∈ s, c.toNat < 128) : byteSize s = s.length := by
  induction s with
  | nil => rfl
  | cons c s ih =>
    obtain ⟨hc, hs⟩ := List.forall_mem_cons.1 h
    rw [byteSize_cons, utf8Size_ascii hc, ih hs, List.length_cons, Nat.add_comm]

/-- what a byte of a character tells about classes of characters of one byte -/
structure AsciiClass (onByte : UInt8 → Bool) (onChar : Char → Bool) : Prop where
  ascii : ∀ n < 128, onByte (UInt8.ofNat n) = onChar (Char.ofNat n)
  wide_byte : ∀ b : UInt8, 128 ≤ b.toNat → onByte b = false
  wide_char : ∀ c : Char, 128 ≤ c.toNat → onChar c = false

theorem AsciiClass.head {onByte : UInt8 → Bool} {onChar : Char → Bool} (h : AsciiClass onByte onChar) (c : Char)
    (s : List Char) :
    (onChar c = true ∧ utf8 (c :: s) = UInt8.ofNat c.toNat :: utf8 s ∧ onByte (UInt8.ofNat c.toNat) = true ∧
      c.utf8Size = 1) ∨
      (onChar c = false ∧ ∃ b bs, utf8 (c :: s) = b :: bs ∧ onByte b = false) := by
  rw [utf8_cons]
  by_cases hc : c.toNat < 128
  · have hclass := h.ascii c.toNat hc
    rw [Char.ofNat_toNat] at hclass
    rw [utf8EncodeChar_ascii hc, hclass]
    cases hchar : onChar c with
    | true => exact .inl ⟨rfl, rfl, rfl, utf8Size_ascii hc⟩
    | false => exact .inr ⟨rfl, _, _, rfl, by rw [hclass, hchar]⟩
  · obtain ⟨b, bs, hb, hwide⟩ := utf8EncodeChar_wide (Nat.not_lt.1 hc)
    rw [hb]
    exact .inr ⟨h.wide_char c (Nat.not_lt.1 hc), b, _, rfl, h.wide_byte b hwide⟩

/-- a run of characters of the class has as many bytes as characters -/
theorem AsciiClass.takeWhile {onByte : UInt8 → Bool} {onChar : Char → Bool} (h : AsciiClass onByte onChar)
    (s : List Char) : ((utf8 s).takeWhile onByte).length = byteSize (s.takeWhile onChar) := by
  induction s with
  | nil => rfl
  | cons c s ih =>
    rcases h.head c s with ⟨hc, hutf8, hb, hsize⟩ | ⟨hc, b, bs, hutf8, hb⟩
    · rw [hutf8, List.takeWhile_cons_of_pos hb, List.takeWhile_cons_of_pos hc, List.length_cons, ih, byteSize_cons,
        hsize, Nat.add_comm]
    · rw [hutf8, List.takeWhile_cons_of_neg (by simp [hb]), List.takeWhile_cons_of_neg (by simp [hc])]
      rfl

/-! ## Names -/

theorem ascii_of_isNameChar {c : Char} (h : isNameChar c = true) : c.toNat < 128 := by
  have hle {n : UInt32} (hn : n.toNat < 128) (hc : c.val ≤ n) : c.toNat < 128 := Nat.lt_of_le_of_lt hc hn
  unfold isNameChar Char.isAlphanum Char.isAlpha Char.isUpper Char.isLower Char.isDigit at h
  simp only [Bool.or_eq_true, Bool.and_eq_true, decide_eq_true_eq, beq_iff_eq] at h
  rcases h with ((((h | h) | h) | rfl) | rfl)
  · exact hle (by decide) h.2
  · exact hle (by decide) h.2
  · exact hle (by decide) h.2
  · decide
  · decide

theorem isNameByte_class : AsciiClass isNameByte isNameChar where
  ascii := by decide +kernel
  wide_byte := by
    have hall : ∀ n < 256, 128 ≤ n → isNameByte (UInt8.ofNat n) = false := by decide +kernel
    intro b hb
    have := hall b.toNat b.toNat_lt hb
    rwa [UInt8.ofNat_toNat] at this
  wide_char c hc := Bool.eq_false_iff.2 fun h => Nat.not_lt.2 hc (ascii_of_isNameChar h)

theorem isNameByte_of_isFirstByte {k : NameKind} {b : UInt8} (h : isFirstByte k b = true) : isNameByte b = true := by
  unfold isFirstByte at h
  unfold isNameByte
  rcases Bool.or_eq_true _ _ ▸ h with h | h
  · simp [h]
  · simp [eq_of_beq (Bool.and_eq_true _ _ ▸ h).2]

theorem isFirstByte_class (k : NameKind) : AsciiClass (isFirstByte k) k.isFirst where
  ascii := by cases k <;> decide +kernel
  wide_byte b hb := Bool.eq_false_iff.2 fun h => by
    have := isNameByte_class.wide_byte b hb
    rw [isNameByte_of_isFirstByte h] at this
    contradiction
  wide_char c hc := Bool.eq_false_iff.2 fun h => by
    have := isNameByte_class.wide_char c hc
    rw [isNameChar_of_isFirst h] at this
    contradiction

theorem colon_class : AsciiClass (· == 58) (· == ':') where
  ascii := by decide +kernel
  wide_byte b hb := by
    rw [beq_eq_false_iff_ne]
    rintro rfl
    contradiction
  wide_char c hc := by
    rw [beq_eq_false_iff_ne]
    rintro rfl
    contradiction

theorem utf8_append (s t : List Char) : utf8 (s ++ t) = utf8 s ++ utf8 t := List.flatMap_append

theorem length_utf8 (s : List Char) : (utf8 s).length = byteSize s := by
  induction s with
  | nil => rfl
  | cons c s ih => rw [utf8_cons, List.length_append, String.length_utf8EncodeChar, ih, byteSize_cons]

theorem identLength_utf8 (k : NameKind) (s : List Char) : identLength k (utf8 s) = byteSize (ident k s) := by
  cases s with
  | nil => rfl
  | cons c s =>
    rcases (isFirstByte_class k).head c s with ⟨hc, hutf8, hb, hsize⟩ | ⟨hc, b, bs, hutf8, hb⟩
    · rw [hutf8, identLength, if_pos hb, ident, if_pos hc, isNameByte_class.takeWhile, byteSize_cons, hsize]
    · rw [hutf8, identLength, if_neg (by simp [hb]), ident, if_neg (by simp [hc])]
      rfl

/-- where a colon stands and what follows it, by bytes -/
theorem colon_utf8 (s : List Char) : ((utf8 s)[0]? = some 58 ∧ ∃ t, s = ':' :: t ∧ utf8 s = 58 :: utf8 t) ∨
    ((utf8 s)[0]? ≠ some 58 ∧ s.head? ≠ some ':') := by
  cases s with
  | nil => exact .inr ⟨by simp [utf8], by simp⟩
  | cons c s =>
    rcases colon_class.head c s with ⟨hc, hutf8, hb, -⟩ | ⟨hc, b, bs, hutf8, hb⟩
    · obtain rfl := eq_of_beq hc
      exact .inl ⟨by rw [hutf8]; rfl, s, rfl, hutf8⟩
    · rw [hutf8]
      exact .inr ⟨by simpa using hb, by simpa using hc⟩

theorem byteSize_pos {s : List Char} : 0 < byteSize s ↔ s ≠ [] := by
  cases s with
  | nil => simp
  | cons c s =>
    have := c.utf8Size_pos
    simp only [byteSize_cons, ne_eq, reduceCtorEq, not_false_eq_true, iff_true]
    omega

theorem nameLength_utf8 (k : NameKind) (s : List Char) : nameLength k (utf8 s) = byteSize (k.longest s) := by
  obtain ⟨t, ht⟩ := ident_isPrefix k s
  have hdrop : s.drop (ident k s).length = t := by
    have := @List.drop_left _ (ident k s) t
    rwa [ht] at this
  have hutf8 : utf8 s = utf8 (ident k s) ++ utf8 t := by rw [← utf8_append, ht]
  have hget : (utf8 s)[byteSize (ident k s)]? = (utf8 t)[0]? := by
    rw [hutf8, List.getElem?_append_right (Nat.le_of_eq (length_utf8 _)), length_utf8, Nat.sub_self]
  unfold nameLength NameKind.longest
  simp only [identLength_utf8, hget, hdrop, byteSize_pos]
  by_cases hname : ident k s ≠ [] ∧ k.namespaced = true
  · have hcond : (k.namespaced && !(ident k s).isEmpty) = true := by simp [hname]
    rw [if_pos hcond, byteSize_append]
    rcases colon_utf8 t with ⟨hcolon, u, rfl, hu⟩ | ⟨hcolon, hhead⟩
    · have hrest : (utf8 s).drop (byteSize (ident k s) + 1) = utf8 u := by
        rw [hutf8, hu, ← length_utf8, ← List.drop_drop, List.drop_left]
        rfl
      rw [if_pos ⟨hname.1, hname.2, hcolon⟩, hrest, identLength_utf8, afterNamespace]
      by_cases hsecond : ident k u = []
      · simp [hsecond]
      · rw [if_pos (byteSize_pos.2 hsecond), if_neg (by simpa using hsecond), byteSize_cons, Nat.add_assoc]
        rfl
    · have hafter : afterNamespace k t = [] := by
        unfold afterNamespace
        split
        · exact absurd rfl hhead
        · rfl
      rw [if_neg fun h => hcolon h.2.2, hafter, byteSize_nil, Nat.add_zero]
  · have hcond : (k.namespaced && !(ident k s).isEmpty) ≠ true := by
      simp only [ne_eq, Bool.and_eq_true, Bool.not_eq_true', List.isEmpty_eq_false_iff]
      exact fun h => hname ⟨h.2, h.1⟩
    rw [if_neg hcond, if_neg fun h => hname ⟨h.1, h.2.1⟩]

end BlockTemplates.Cursor
