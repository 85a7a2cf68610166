/-
Escaping in both directions. What is written is put together from entities and from the runs of bytes between the
characters that they replace. These characters have one byte each, and no byte of a longer character is like one of
them, so a run ends where a character does, and the whole is what replacing character by character gives. Every entity
begins with an ampersand, which is itself replaced, so the entities can be read again without doubt.

Main statements: `pushEscaped_eq` (copying runs is replacing characters), `unescape_escape` (reading the entities gives
the text back) and `escaping_is_reversible`.
-/
import BlockTemplates.Proofs.Cursor.NameBytes
import BlockTemplates.Proofs.Rendering.Language

namespace BlockTemplates.Html

open Text Cursor

/-! ## Entities -/

/-- the characters that do not stand as they are, each with what is written for it -/
def entities : Place → List (Char × String)
  | .text => [('&', "&amp;"), ('<', "&lt;"), ('>', "&gt;")]
  | .value => [('&', "&amp;"), ('<', "&lt;"), ('>', "&gt;"), ('"', "&quot;"), ('\'', "&#39;")]

/-- every character replaced by its entity, if it has one -/
def substitute (place : Place) (s : String) : String :=
  String.join (s.toList.map fun c => ((entities place).lookup c).getD (String.singleton c))

section

variable {place : Place} {c : Char} {e : String}

theorem entity_eq (place : Place) (c : Char) :
    entity place c = (((entities place).lookup c).map String.toList).getD [c] := by
  unfold entity
  split
  · cases place <;> rfl
  · cases place <;> rfl
  · cases place <;> rfl
  · rfl
  · rfl
  · rename_i hamp hlt hgt hquot hapos
    have hnone : (entities place).lookup c = none := by
      rw [List.lookup_eq_none_iff]
      cases place with
      | text => simpa [entities] using ⟨hamp, hlt, hgt⟩
      | value => simpa [entities] using ⟨hamp, hlt, hgt, hquot rfl, hapos rfl⟩
    rw [hnone]
    rfl

theorem mem_entities_of_lookup (h : (entities place).lookup c = some e) : (c, e) ∈ entities place := by
  obtain ⟨before, after, hsplit, -⟩ := List.lookup_eq_some_iff.1 h
  rw [hsplit]
  exact List.mem_append_right before List.mem_cons_self

theorem entity_of_lookup (h : (entities place).lookup c = some e) : entity place c = e.toList := by
  rw [entity_eq, h]
  rfl

theorem entity_of_lookup_none (h : (entities place).lookup c = none) : entity place c = [c] := by
  rw [entity_eq, h]
  rfl

theorem escape_eq_substitute (place : Place) (s : String) : escape place s = substitute place s := by
  have hpiece (c : Char) : entity place c = (((entities place).lookup c).getD (String.singleton c)).toList := by
    rw [entity_eq]
    cases (entities place).lookup c with
    | none => simp
    | some e => rfl
  unfold escape substitute escapeChars
  rw [← String.toList_inj, String.toList_ofList, String.toList_join, List.flatMap_map]
  exact congrArg s.toList.flatMap (funext hpiece)

end

/-! ## Copying runs of bytes -/

/-- what is written in place of a byte, if it is not copied -/
def replacement? (place : Place) (b : UInt8) : Option String :=
  (entities place).findSome? fun p => if UInt8.ofNat p.1.toNat = b then some p.2 else none

/-- the part of a text between two byte offsets, if it can be cut out there -/
def slice? (start stop : Nat) (s : List Char) : Option (List Char) := do
  let upTo ← cut? stop s
  let parts ← cut? start upTo.1
  return parts.2

/-- what has been written, and up to which byte the text has been dealt with -/
structure Copying where
  out : List Char
  done : Nat

/-- a byte that is replaced ends the run before it; other bytes wait for that -/
def copyByte (place : Place) (s : List Char) (offset : Nat) (b : UInt8) (st : Copying) : Option Copying :=
  match replacement? place b with
  | none => some st
  | some e => (slice? st.done offset s).map fun run => ⟨st.out ++ run ++ e.toList, offset + 1⟩

/-- one byte after the other, from an offset on -/
def copyBytes (place : Place) (s : List Char) : Nat → List UInt8 → Copying → Option Copying
  | _, [], st => some st
  | offset, b :: bs, st => (copyByte place s offset b st).bind (copyBytes place s (offset + 1) bs)

/-- add a text in its escaped form to what is there; nothing comes out if a run cannot be cut out -/
def pushEscaped (place : Place) (out s : String) : Option String := do
  let st ← copyBytes place s.toList 0 (utf8 s.toList) ⟨out.toList, 0⟩
  let run ← slice? st.done (byteSize s.toList) s.toList
  return String.ofList (st.out ++ run)

section

variable {place : Place} {s : List Char} {st : Copying} {c : Char} {e : String}

theorem slice?_append (before run after : List Char) :
    slice? (byteSize before) (byteSize (before ++ run)) (before ++ run ++ after) = some run := by
  unfold slice?
  rw [cut?_byteSize_append, Option.bind_eq_bind, Option.bind_some, cut?_byteSize_append]
  rfl

/-- no byte of a longer character is one of the first 128 -/
theorem le_of_mem_utf8EncodeChar (h : 128 ≤ c.toNat) {b : UInt8} (hb : b ∈ String.utf8EncodeChar c) :
    128 ≤ b.toNat := by
  have hv : ¬ c.val.toNat ≤ 127 := Nat.not_le.2 h
  unfold String.utf8EncodeChar at hb
  dsimp only at hb
  rw [if_neg hv] at hb
  split at hb
  · simp only [List.mem_cons, List.not_mem_nil, or_false] at hb
    rcases hb with rfl | rfl
    all_goals
      rw [UInt8.toNat_ofNat']
      omega
  · split at hb
    · simp only [List.mem_cons, List.not_mem_nil, or_false] at hb
      rcases hb with rfl | rfl | rfl
      all_goals
        rw [UInt8.toNat_ofNat']
        omega
    · simp only [List.mem_cons, List.not_mem_nil, or_false] at hb
      rcases hb with rfl | rfl | rfl | rfl
      all_goals
        rw [UInt8.toNat_ofNat']
        omega

/-- the byte of a character that is replaced is replaced, and no byte of another character is -/
theorem replacement?_utf8EncodeChar (place : Place) (c : Char) :
    (∃ e b, (entities place).lookup c = some e ∧ String.utf8EncodeChar c = [b] ∧ replacement? place b = some e) ∨
      ((entities place).lookup c = none ∧ ∀ b ∈ String.utf8EncodeChar c, replacement? place b = none) := by
  have hascii : ∀ n < 128, replacement? place (UInt8.ofNat n) = (entities place).lookup (Char.ofNat n) := by
    cases place with
    | text => decide +kernel
    | value => decide +kernel
  have hwide : ∀ n < 256, 128 ≤ n → replacement? place (UInt8.ofNat n) = none := by
    cases place with
    | text => decide +kernel
    | value => decide +kernel
  by_cases hc : c.toNat < 128
  · have hbyte := hascii c.toNat hc
    rw [Char.ofNat_toNat] at hbyte
    rw [utf8EncodeChar_ascii hc]
    cases hlookup : (entities place).lookup c with
    | none => exact .inr ⟨rfl, by simpa using hbyte.trans hlookup⟩
    | some e => exact .inl ⟨e, _, rfl, rfl, hbyte.trans hlookup⟩
  · have hc := Nat.not_lt.1 hc
    refine .inr ⟨?_, ?_⟩
    · have hkeys : ∀ p ∈ entities place, p.1.toNat < 128 := by cases place <;> decide
      rw [List.lookup_eq_none_iff]
      intro p hp
      have hne : c ≠ p.1 := fun heq => Nat.not_lt.2 hc (heq ▸ hkeys p hp)
      exact bne_iff_ne.2 hne
    · intro b hb
      have := hwide b.toNat b.toNat_lt (le_of_mem_utf8EncodeChar hc hb)
      rwa [UInt8.ofNat_toNat] at this

theorem copyBytes_append (place : Place) (s : List Char) (bs bs' : List UInt8) (offset : Nat) (st : Copying) :
    copyBytes place s offset (bs ++ bs') st =
      (copyBytes place s offset bs st).bind (copyBytes place s (offset + bs.length) bs') := by
  induction bs generalizing offset st with
  | nil => rfl
  | cons b bs ih =>
    have hoffset : offset + (b :: bs).length = offset + 1 + bs.length := by
      rw [List.length_cons]
      omega
    rw [List.cons_append, copyBytes, copyBytes, hoffset, Option.bind_assoc]
    exact congrArg _ (funext fun st' => ih (offset + 1) st')

/-- bytes that are not replaced are left for later -/
theorem copyBytes_kept {bs : List UInt8} (h : ∀ b ∈ bs, replacement? place b = none) (offset : Nat) :
    copyBytes place s offset bs st = some st := by
  induction bs generalizing offset with
  | nil => rfl
  | cons b bs ih =>
    rw [List.forall_mem_cons] at h
    rw [copyBytes, copyByte, h.1]
    exact ih h.2 (offset + 1)

/-- where the copying is when the text `before` is behind it: a part of that has been written in its escaped form, and
the run after that part needs no escaping -/
def Copied (place : Place) (out before : List Char) (st : Copying) : Prop :=
  ∃ written run, before = written ++ run ∧ st.done = byteSize written ∧
    st.out = out ++ escapeChars place written ∧ escapeChars place run = run

/-- a character is either kept for the run or ends it -/
theorem Copied.char {out before : List Char} (h : Copied place out before st) (c : Char) (after : List Char) :
    ∃ st', copyBytes place (before ++ c :: after) (byteSize before) (String.utf8EncodeChar c) st = some st' ∧
      Copied place out (before ++ [c]) st' := by
  obtain ⟨written, run, rfl, hdone, hout, hrun⟩ := h
  rcases replacement?_utf8EncodeChar place c with ⟨e, b, hlookup, hbytes, hb⟩ | ⟨hlookup, hbytes⟩
  · have hcut : slice? st.done (byteSize (written ++ run)) (written ++ run ++ c :: after) = some run := by
      rw [hdone, slice?_append]
    have hsize : c.utf8Size = 1 := by rw [← String.length_utf8EncodeChar, hbytes, List.length_singleton]
    refine ⟨⟨st.out ++ run ++ e.toList, byteSize (written ++ run) + 1⟩, ?_, written ++ run ++ [c], [], ?_, ?_, ?_, rfl⟩
    · rw [hbytes, copyBytes, copyByte, hb, hcut]
      rfl
    · rw [List.append_nil]
    · rw [byteSize_append (written ++ run), byteSize_cons, hsize]
      rfl
    · have hc : escapeChars place [c] = e.toList := by
        rw [escapeChars, List.flatMap_singleton, entity_of_lookup hlookup]
      rw [escapeChars_append, escapeChars_append, hrun, hc, hout]
      simp only [List.append_assoc]
  · refine ⟨st, copyBytes_kept hbytes _, written, run ++ [c], ?_, hdone, hout, ?_⟩
    · rw [List.append_assoc]
    · have hc : escapeChars place [c] = [c] := by
        rw [escapeChars, List.flatMap_singleton, entity_of_lookup_none hlookup]
      rw [escapeChars_append, hrun, hc]

theorem Copied.chars {out before : List Char} (h : Copied place out before st) (after : List Char) :
    ∃ st', copyBytes place (before ++ after) (byteSize before) (utf8 after) st = some st' ∧
      Copied place out (before ++ after) st' := by
  induction after generalizing before st with
  | nil => exact ⟨st, rfl, (List.append_nil before).symm ▸ h⟩
  | cons c after ih =>
    obtain ⟨st₁, hstep, h₁⟩ := h.char c after
    obtain ⟨st₂, hrest, h₂⟩ := ih h₁
    rw [List.append_assoc, List.singleton_append, byteSize_append, byteSize_cons] at hrest
    rw [List.append_assoc, List.singleton_append] at h₂
    refine ⟨st₂, ?_, h₂⟩
    rw [utf8_cons, copyBytes_append, hstep, String.length_utf8EncodeChar]
    exact hrest

end

/-- copying runs of bytes and entities adds what replacing character by character gives -/
theorem pushEscaped_eq (place : Place) (out s : String) : pushEscaped place out s = some (out ++ escape place s) := by
  have hstart : Copied place out.toList [] ⟨out.toList, 0⟩ := ⟨[], [], rfl, rfl, (List.append_nil _).symm, rfl⟩
  obtain ⟨st, hcopied, written, run, hs, hdone, hout, hrun⟩ := hstart.chars s.toList
  rw [List.nil_append] at hs hcopied
  have hlast : slice? st.done (byteSize s.toList) s.toList = some run := by
    have := slice?_append written run []
    rwa [List.append_nil, ← hs, ← hdone] at this
  unfold pushEscaped
  rw [byteSize_nil] at hcopied
  rw [hcopied, Option.bind_eq_bind, Option.bind_some, hlast]
  have htext : st.out ++ run = (out ++ escape place s).toList := by
    rw [hout, String.toList_append, escape, String.toList_ofList, hs, escapeChars_append, hrun, List.append_assoc]
  rw [Option.bind_eq_bind, Option.bind_some, htext, String.ofList_toList]
  rfl

/-! ## Reading entities -/

/-- the entity at the front of a text, with the character that it stands for -/
def entityAt? (place : Place) (s : List Char) : Option (Char × String) :=
  (entities place).find? fun p => p.2.toList.isPrefixOf s

/-- from the front on, entities give way to what they stand for; all else stays as it is -/
def unescapeChars (place : Place) : List Char → List Char
  | [] => []
  | c :: s =>
    match entityAt? place (c :: s) with
    | some (d, e) => d :: unescapeChars place (s.drop (e.toList.length - 1))
    | none => c :: unescapeChars place s
termination_by s => s.length
decreasing_by
  · rw [List.length_drop, List.length_cons]
    omega
  · rw [List.length_cons]
    omega

/-- the text in which the entities of a place are replaced by what they stand for -/
def unescape (place : Place) (s : String) : String := String.ofList (unescapeChars place s.toList)

section

variable {place : Place} {c : Char} {e : String}

theorem unescapeChars_entity (h : (c, e) ∈ entities place) (s : List Char) :
    unescapeChars place (e.toList ++ s) = c :: unescapeChars place s := by
  -- no entity is the beginning of another one
  have hfind : entityAt? place (e.toList ++ s) = some (c, e) := by
    cases place with
    | text =>
      simp only [entities, List.mem_cons, Prod.mk.injEq, List.not_mem_nil, or_false] at h
      rcases h with ⟨rfl, rfl⟩ | ⟨rfl, rfl⟩ | ⟨rfl, rfl⟩
      all_goals rfl
    | value =>
      simp only [entities, List.mem_cons, Prod.mk.injEq, List.not_mem_nil, or_false] at h
      rcases h with ⟨rfl, rfl⟩ | ⟨rfl, rfl⟩ | ⟨rfl, rfl⟩ | ⟨rfl, rfl⟩ | ⟨rfl, rfl⟩
      all_goals rfl
  have hne : e.toList ≠ [] := by
    have hall : ∀ p ∈ entities place, p.2.toList ≠ [] := by cases place <;> decide
    exact hall (c, e) h
  cases htext : e.toList with
  | nil => contradiction
  | cons d t =>
    rw [htext, List.cons_append] at hfind
    rw [List.cons_append, unescapeChars, hfind]
    simp only [htext, List.length_cons, Nat.add_sub_cancel, List.drop_left]

theorem unescapeChars_cons (h : c ≠ '&') (s : List Char) :
    unescapeChars place (c :: s) = c :: unescapeChars place s := by
  have hfind : entityAt? place (c :: s) = none := by
    have hall : ∀ p ∈ entities place, p.2.toList.head? = some '&' := by cases place <;> decide
    rw [entityAt?, List.find?_eq_none]
    intro p hp hprefix
    obtain ⟨t, ht⟩ := List.isPrefixOf_iff_prefix.1 hprefix
    have hhead := hall p hp
    cases hp2 : p.2.toList with
    | nil => simp [hp2] at hhead
    | cons d u =>
      rw [hp2, List.head?_cons, Option.some.injEq] at hhead
      rw [hp2, List.cons_append, List.cons.injEq] at ht
      exact h (ht.1.symm.trans hhead)
  rw [unescapeChars, hfind]

/-- reading the entities gives the text back, also for a reader that knows more of them than were written -/
theorem unescape_escape {reader : Place} (h : entities place ⊆ entities reader) (s : String) :
    unescape reader (escape place s) = s := by
  have hchars (cs : List Char) : unescapeChars reader (escapeChars place cs) = cs := by
    induction cs with
    | nil => rw [escapeChars, List.flatMap_nil, unescapeChars]
    | cons c cs ih =>
      have hcons : escapeChars place (c :: cs) = entity place c ++ escapeChars place cs := List.flatMap_cons
      rw [hcons]
      cases hlookup : (entities place).lookup c with
      | some e =>
        rw [entity_of_lookup hlookup, unescapeChars_entity (h (mem_entities_of_lookup hlookup)), ih]
      | none =>
        have hne : c ≠ '&' := by
          rintro rfl
          cases place <;> contradiction
        rw [entity_of_lookup_none hlookup, List.singleton_append, unescapeChars_cons hne, ih]
  rw [unescape, escape, String.toList_ofList, hchars, String.ofList_toList]

/-- what stands in place of a character is one of the entities -/
theorem exists_entity_of_isEntity {t : List Char} (h : IsEntity place t) : ∃ p ∈ entities place, p.2.toList = t := by
  obtain ⟨c, rfl, hne⟩ := h
  cases hlookup : (entities place).lookup c with
  | some e => exact ⟨(c, e), mem_entities_of_lookup hlookup, (entity_of_lookup hlookup).symm⟩
  | none => exact absurd (entity_of_lookup_none hlookup) hne

end

/-- **Escaping is reversible and leaves no markup.** Escaping a text, between tags or as the value of an attribute,
replaces every character that has an entity by it, and so does adding the escaped text to any other by copying runs of
bytes, which never fails. Texts can be escaped piece by piece; reading the entities gives the text back, so no two texts
are escaped alike; no character that is markup there is left, and no ampersand that does not begin an entity. -/
theorem escaping_is_reversible (place : Place) (s : String) :
    escape place s = substitute place s ∧
      (∀ out, pushEscaped place out s = some (out ++ escape place s)) ∧
      (∀ t, escape place (s ++ t) = escape place s ++ escape place t) ∧
      unescape place (escape place s) = s ∧ unescape .value (escape place s) = s ∧
      (∀ t, escape place t = escape place s → t = s) ∧
      (∀ c ∈ reserved place, c ∉ (escape place s).toList) ∧
      ∀ before after, (escape place s).toList = before ++ '&' :: after →
        ∃ p ∈ entities place, p.2.toList <+: '&' :: after := by
  have hread (t : String) : unescape place (escape place t) = t := unescape_escape (List.Subset.refl _) t
  have hvalue : entities place ⊆ entities .value := by cases place <;> decide
  have hescaped := escaped_escape place s
  refine ⟨escape_eq_substitute place s, fun out => pushEscaped_eq place out s, escape_append place s, hread s,
    unescape_escape hvalue s, ?_, ?_, ?_⟩
  · intro t ht
    rw [← hread t, ht, hread s]
  · intro c hc hmem
    exact hescaped.plain c hmem hc
  · intro before after htext
    obtain ⟨t, ht, hprefix⟩ := hescaped.ampersand after (htext ▸ List.suffix_append before _)
    obtain ⟨p, hp, rfl⟩ := exists_entity_of_isEntity ht
    exact ⟨p, hp, hprefix⟩

/-- a text that looks like an entity, and has quotes around a longer character -/
def entityLike : String := "&lt; '\u00e9'"

theorem entityLike_is_reversible :
    escape .value entityLike = "&amp;lt; &#39;\u00e9&#39;" ∧
      pushEscaped .value "<" entityLike = some "<&amp;lt; &#39;\u00e9&#39;" ∧
      unescape .value "&amp;lt; &#39;\u00e9&#39;" = entityLike ∧
      ∃ p ∈ entities .value, p.2.toList <+: "&#39;".toList := by
  have hescape : escape .value entityLike = "&amp;lt; &#39;\u00e9&#39;" := by decide
  obtain ⟨-, hpush, -, hread, -, -, -, hampersand⟩ := escaping_is_reversible .value entityLike
  rw [hescape] at hread
  refine ⟨hescape, ?_, hread, ?_⟩
  · rw [hpush, hescape]
    rfl
  · exact hampersand "&amp;lt; &#39;\u00e9".toList "#39;".toList (by rw [hescape]; rfl)

end BlockTemplates.Html
