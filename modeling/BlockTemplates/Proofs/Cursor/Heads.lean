/-
The readings of attribute lists and of the heads of elements follow their readers.

Main statements: `readAttributes` and `readHead`.
-/
import BlockTemplates.Proofs.Cursor.Words

namespace BlockTemplates.Source

open Markup

/-! ## The readers, step by step -/

/-- reading entries as readings one after the other -/
theorem readEntries_eq_bind (allowed : Bool) (s : List Char) :
    readEntries allowed s =
      (readEntry allowed s).bind fun p =>
        match p.2 with
        | ')' :: r => .ok ([p.1], r)
        | ',' :: r =>
          (skipGap r).bind fun r =>
            (readEntries (allowed && !p.1.isSuperCall) r).map fun q => (p.1 :: q.1, q.2)
        | r => .error ⟨.invalidAttributes, r⟩ := by
  rw [readEntries_eq]
  rcases readEntry allowed s with f | ⟨e, r⟩
  · rfl
  simp only [Except.bind]
  split
  · contradiction
  · rename_i heq
    cases heq
    rfl
  · rename_i heq
    cases heq
    rename_i t
    show _ = (skipGap t).bind _
    rcases skipGap t with f | u
    · rfl
    dsimp only [Except.bind]
    rcases readEntries (allowed && !e.isSuperCall) u with f | q
    · rfl
    · rfl
  · rename_i hclose hcomma heq
    cases heq
    split
    · exact absurd rfl (hclose _)
    · exact absurd rfl (hcomma _)
    · rfl

theorem consName_eq_map (name : String) (x : Except Fault (List String × List Char)) :
    (match x with
      | .error f => .error f
      | .ok (names, r) => .ok (name :: names, r)) = x.map fun p => (name :: p.1, p.2) := by
  cases x with
  | error f => rfl
  | ok p => rfl

/-- reading names as readings one after the other -/
theorem readNames_eq_bind (s : List Char) :
    readNames s =
      match readName .element s with
      | none => .error ⟨.expectedElementName, s⟩
      | some (name, r) =>
        match skipSpaces r with
        | ',' :: r => (readNames (skipSpaces r)).map fun p => (name :: p.1, p.2)
        | r => .ok ([name], r) := by
  rw [readNames_eq]
  rcases readName .element s with _ | ⟨name, r⟩
  · rfl
  dsimp only
  rcases skipSpaces r with _ | ⟨c, t⟩
  · rfl
  by_cases hc : c = ','
  · subst hc
    exact consName_eq_map name _
  · simp [hc]

/-- reading a head as readings one after the other -/
theorem readHead_eq_bind (s : List Char) :
    readHead s =
      let mark := readHelperMark s
      let tag := readTag mark.2
      (readNamePart tag.2).bind fun p =>
        if tag.1.isNone && p.1.isNone then .error ⟨.expectedElement, s⟩
        else (readAttributePart p.2).map fun q => (⟨mark.1, tag.1, p.1, q.1⟩, q.2) := by
  unfold readHead
  dsimp only
  rcases readNamePart (readTag (readHelperMark s).2).2 with f | p
  · rfl
  simp only [bind, Except.bind]
  split
  · rfl
  · rcases readAttributePart p.2 with f | q
    · rfl
    · rfl

end BlockTemplates.Source

namespace BlockTemplates.Cursor

open Text Markup Source

namespace Follows

variable {text s : List Char} {n : Nat}

/-! ## Attribute lists -/

theorem readBareValue : Follows text readBareValue s (Source.readBareValue s) := by
  have hs := List.takeWhile_append_dropWhile (p := (!endsBareValue ·)) (l := s)
  refine rest.bind_ok ?_
  rw [findChar?_eq]
  unfold Source.readBareValue
  cases hdrop : s.dropWhile (!endsBareValue ·) with
  | nil => exact fail
  | cons c r =>
    rw [hdrop] at hs
    exact (skip hs.symm rfl).bind_ok (cut hs.symm rfl).map_ok

theorem readValue : Follows text readValue s (Source.readValue s) := by
  refine skipSpaces.bind_ok ?_
  unfold Source.readValue
  cases Source.skipSpaces s with
  | nil => exact readBareValue
  | cons c t =>
    dsimp only [List.head?_cons]
    split
    · exact readLiteral
    · exact readBareValue

/-- a gap, and then a reader that is given what comes next -/
theorem skipGap_bind {α : Type} {k : Option Char → Reading α} {g : List Char → Except Fault (α × List Char)}
    (hk : ∀ r, Source.skipGap s = .ok r → Follows text (k r.head?) r (g r)) :
    Follows text (Cursor.skipGap >>= k) s ((Source.skipGap s).bind g) := by
  have hgap := @skipGap text s
  cases hs : Source.skipGap s with
  | error f => exact (hgap.of_eq (by rw [hs]; rfl)).bind_error
  | ok r => exact (hgap.of_eq (by rw [hs]; rfl)).bind_ok (hk r hs)

theorem readAttribute : Follows text readAttribute s (Source.readAttribute s) := by
  refine readName.bind_ok ?_
  unfold Source.readAttribute
  cases Source.readName .attr s with
  | none => exact fail
  | some p =>
    refine skipGap_bind fun r _ => ?_
    split
    · rename_i heq
      obtain ⟨t, rfl⟩ := List.head?_eq_some_iff.1 heq
      refine advance_cons.bind_ok (readValue.bind fun value u _ => ?_)
      exact skipGap_bind fun _ _ => pure _
    · rename_i hne
      split
      · exact absurd rfl hne
      · exact pure _

theorem readEntry {allowed : Bool} : Follows text (readEntry allowed) s (Source.readEntry allowed s) := by
  refine readSuperCallIf.bind_ok ?_
  unfold Source.readEntry
  cases if allowed then Source.readSuperCall s else none with
  | none => exact readAttribute.bind fun _ _ _ => pure _
  | some p => exact skipGap_bind fun _ _ => pure _

theorem readEntriesFor {allowed : Bool} (hn : s.length < n) :
    Follows text (readEntriesFor n allowed) s (Source.readEntries allowed s) := by
  induction n generalizing s allowed with
  | zero => exact absurd hn (Nat.not_lt_zero _)
  | succ n ih =>
    rw [readEntries_eq_bind]
    refine readEntry.bind fun e r hr => peek.bind_ok ?_
    dsimp only
    split
    · rename_i heq
      obtain ⟨t, rfl⟩ := List.head?_eq_some_iff.1 heq
      exact advance_cons.bind_ok (pure _)
    · rename_i heq
      obtain ⟨t, rfl⟩ := List.head?_eq_some_iff.1 heq
      refine advance_cons.bind_ok (skipGap_bind fun u hu => map (ih ?_))
      have := (IsRest.suffix_trans ((skipGap_suffix hu).trans (List.suffix_cons ',' t)) (readEntry_isRest hr)).2
      omega
    · rename_i hclose hcomma
      split
      · exact absurd rfl hclose
      · exact absurd rfl hcomma
      · exact fail

theorem readAttributes : Follows text readAttributes ('(' :: s) (Source.readAttributes s) := by
  refine expect_cons.bind_ok (skipGap_bind fun r hr => ?_)
  split
  · rename_i heq
    obtain ⟨t, rfl⟩ := List.head?_eq_some_iff.1 heq
    exact advance_cons.bind_ok (pure _)
  · rename_i hclose
    split
    · exact absurd rfl hclose
    · refine rounds_bind fun n hn => (readEntriesFor hn).bind fun es t ht => pure _

/-! ## Heads -/

theorem readNamesFor (hn : s.length < n) : Follows text (readNamesFor n) s (readNames s) := by
  induction n generalizing s with
  | zero => exact absurd hn (Nat.not_lt_zero _)
  | succ n ih =>
    rw [readNames_eq_bind]
    refine readName.bind_ok ?_
    cases hname : Source.readName .element s with
    | none => exact fail
    | some p =>
      obtain ⟨name, r⟩ := p
      refine skipSpaces.bind_ok ?_
      dsimp only
      split
      · rename_i heq
        obtain ⟨t, ht⟩ := List.head?_eq_some_iff.1 heq
        rw [ht]
        refine advance_cons.bind_ok (skipSpaces.bind_ok (map (ih ?_)))
        have hr := ((skipSpaces_suffix t).trans ((List.suffix_cons ',' t).trans (ht ▸ skipSpaces_suffix r))).length_le
        have hs := (readName_isRest hname).2
        omega
      · rename_i hne
        split
        · rename_i heq
          exact absurd (by rw [heq]; rfl) hne
        · exact pure _

theorem readNameList : Follows text readNameList s (Source.readNameList s) := by
  refine skipSpaces.bind_ok ?_
  unfold Source.readNameList
  split
  · rename_i heq
    obtain ⟨t, ht⟩ := List.head?_eq_some_iff.1 heq
    rw [ht]
    refine advance_cons.bind_ok (skipSpaces.bind_ok (rounds_bind fun n hn => ?_))
    exact (readNamesFor hn).bind fun _ _ _ => pure _
  · rename_i hne
    split
    · rename_i heq
      exact absurd (by rw [heq]; rfl) hne
    · exact rounds_bind fun n hn => (readNamesFor hn).bind fun _ _ _ => pure _

theorem readTag : Follows text readTag s (.ok (Source.readTag s)) := by
  refine readName.bind_ok ?_
  unfold Source.readTag
  cases Source.readName .tag s with
  | none => exact pure none
  | some p => exact skipSpaces.bind_ok (pure _)

theorem readNamePart : Follows text readNamePart s (Source.readNamePart s) := by
  refine peek.bind_ok ?_
  unfold Source.readNamePart
  split
  · rename_i heq
    obtain ⟨t, rfl⟩ := List.head?_eq_some_iff.1 heq
    refine atComment.bind_ok ?_
    split
    · exact pure none
    · exact advance_cons.bind_ok (readNameList.bind fun _ _ _ => pure _)
  · rename_i hne
    split
    · exact absurd rfl hne
    · exact pure none

theorem readAttributePart : Follows text readAttributePart s (Source.readAttributePart s) := by
  refine peek.bind_ok ?_
  unfold Source.readAttributePart
  split
  · rename_i heq
    obtain ⟨t, rfl⟩ := List.head?_eq_some_iff.1 heq
    exact readAttributes.bind fun _ _ _ => skipSpaces.bind_ok (pure _)
  · rename_i hne
    split
    · exact absurd rfl hne
    · exact pure none

theorem eat_helperMark : Follows text (eat ['@']) s (.ok (readHelperMark s)) := by
  refine rest.bind_ok ?_
  rcases readHelperMark_eq s with h | ⟨h, hne⟩
  · have hmark : readHelperMark s = (true, (readHelperMark s).2) := by rw [h]; rfl
    rw [hmark, if_pos (List.isPrefixOf_iff_prefix.2 ⟨_, h.symm⟩)]
    exact (skip h rfl).map_ok
  · have hmark : readHelperMark s = (false, s) := by
      unfold readHelperMark
      split
      · exact absurd rfl hne
      · rfl
    rw [hmark, if_neg fun hp => ?_]
    · exact pure false
    · obtain ⟨r, rfl⟩ := List.isPrefixOf_iff_prefix.1 hp
      exact hne rfl

theorem readHead : Follows text readHead s (Source.readHead s) := by
  rw [readHead_eq_bind]
  have hmark := @eat_helperMark text s
  generalize readHelperMark s = mark at hmark ⊢
  obtain ⟨isHelper, t⟩ := mark
  have htag := @readTag text t
  dsimp only
  generalize Source.readTag t = tag at htag ⊢
  obtain ⟨tagName, u⟩ := tag
  refine position_bind fun before hbefore => hmark.bind_ok (htag.bind_ok (readNamePart.bind fun names r _ => ?_))
  dsimp only
  split
  · exact failAt hbefore
  · exact readAttributePart.map

end Follows

end BlockTemplates.Cursor
