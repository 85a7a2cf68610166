/-
The cursor stays in the source. Reading a whole document with a cursor follows the reader of documents, so it ends with
the tree or the error of `parse`; on the way the cursor never goes back, and each offset that it comes to, at which the
source is cut or at which an error lies, is a boundary of characters in the source.

Main statements: `Follows.readContentFor` (content, by the rounds that are left) and `cursor_stays_inside`.
-/
import BlockTemplates.Markup.Equality
import BlockTemplates.Proofs.Cursor.Heads

namespace BlockTemplates.Source

open Text Markup

/-- reading content as readings one after the other -/
theorem contentOf_eq_bind (opening : Option (List Char)) (s : List Char) :
    contentOf opening s =
      match skipSpaces s with
      | [] =>
        match opening with
        | some brace => .error ⟨.missingClosingBrace, brace⟩
        | none => .ok ([], [])
      | c :: t =>
        if isQuote c then
          (readLiteral (c :: t)).bind fun p => (contentOf opening p.2).map fun q => (.text p.1 :: q.1, q.2)
        else if atComment (c :: t) then
          (readComment (c :: t)).bind fun p =>
            (contentOf opening p.2).map fun q => (.comment p.1.value p.1.multiline :: q.1, q.2)
        else if c = '\x7d' ∧ opening.isSome then .ok ([], t)
        else
          match if opening.isSome then readSuperCall (c :: t) else none with
          | some (call, r) => (contentOf opening r).map fun q => (.superCall call :: q.1, q.2)
          | none =>
            (readHead (c :: t)).bind fun p =>
              match p.2 with
              | '\x7b' :: r =>
                (contentOf (some ('\x7b' :: r)) r).bind fun q =>
                  (contentOf opening q.2).map fun u => (.element (p.1.element (some q.1)) :: u.1, u.2)
              | r => (contentOf opening r).map fun u => (.element (p.1.element none) :: u.1, u.2) := by
  rw [contentOf_eq]
  unfold readItem
  rcases skipSpaces s with _ | ⟨c, t⟩
  · rfl
  dsimp only
  generalize (if opening.isSome then readSuperCall (c :: t) else none) = found
  split_ifs with hquote hcomment hclose
  · rcases readLiteral (c :: t) with f | p
    · rfl
    · rfl
  · rcases readComment (c :: t) with f | p
    · rfl
    · rfl
  · rfl
  · rcases found with _ | p
    · rcases readHead (c :: t) with f | ⟨h, r⟩
      · rfl
      · simp only [bind, Except.bind, pure, Except.pure]
        split
        · contradiction
        · rename_i heq
          cases heq
        · rename_i heq
          cases heq
        · rename_i heq
          cases heq
        · rename_i heq
          cases heq
          rfl
        · rename_i hne heq
          cases heq
          split
          · exact absurd rfl (hne _)
          · rfl
    · rfl

/-- content that is not in braces ends with the source -/
theorem contentOf_none_rest {s r : List Char} {ns : List Node} (h : contentOf none s = .ok (ns, r)) : r = [] := by
  generalize hlength : s.length = n
  induction n using Nat.strongRecOn generalizing s ns with
  | ind n ih =>
    subst hlength
    rw [contentOf_eq_bind] at h
    split at h
    · exact (Prod.mk.inj (Except.ok.inj h)).2.symm
    · rename_i c t hs
      have later {u : List Char} {g : List Node → List Node} (hu : IsRest u (c :: t))
          (h : (contentOf none u).map (fun q => (g q.1, q.2)) = .ok (ns, r)) : r = [] := by
        obtain ⟨q, hq, heq⟩ := map_eq_ok.1 h
        obtain ⟨-, rfl⟩ := Prod.mk.inj heq
        exact ih _ (hu.trans_suffix (hs ▸ skipSpaces_suffix s)).2 hq rfl
      simp only [Option.isSome_none, Bool.false_eq_true, and_false, if_false] at h
      split_ifs at h with hquote hcomment
      · obtain ⟨p, hp, h⟩ := bind_eq_ok.1 h
        exact later (readLiteral_isRest hp) h
      · obtain ⟨p, hp, h⟩ := bind_eq_ok.1 h
        exact later (readComment_isRest hp) h
      · obtain ⟨p, hp, h⟩ := bind_eq_ok.1 h
        have hp' := readHead_isRest hp
        split at h
        · rename_i u hu
          rw [hu] at hp'
          have hrest : IsRest u (c :: t) := .suffix_trans (List.suffix_cons _ u) hp'
          obtain ⟨q, hq, h⟩ := bind_eq_ok.1 h
          exact later (.suffix_trans (contentOf_suffix hq) hrest) h
        · exact later hp' h

theorem readBlockName_sign (s : List Char) :
    readBlockName ('#' :: s) =
      match readName .block s with
      | some (name, r) => .ok (some name, r)
      | none => .error ⟨.invalidBlockName, s⟩ := rfl

end BlockTemplates.Source

namespace BlockTemplates.Cursor

open Text Markup Source

/-- the offset of an opening brace and the text from it on, if there is one -/
def Opening (text : List Char) : Option Nat → Option (List Char) → Prop :=
  Option.Rel fun n brace => ∃ before, text = before ++ brace ∧ byteSize before = n

theorem Opening.isSome_eq {text : List Char} {offset : Option Nat} {opening : Option (List Char)}
    (h : Opening text offset opening) : offset.isSome = opening.isSome := by
  cases h with
  | none => rfl
  | some => rfl

namespace Follows

variable {text s : List Char} {n : Nat}

theorem readContentFor {offset : Option Nat} {opening : Option (List Char)} (hopening : Opening text offset opening)
    (hn : s.length < n) : Follows text (readContentFor n offset) s (contentOf opening s) := by
  induction n generalizing s offset opening with
  | zero => exact absurd hn (Nat.not_lt_zero _)
  | succ n ih =>
    rw [contentOf_eq_bind]
    refine skipSpaces.bind_ok ?_
    have hsuffix := skipSpaces_suffix s
    cases hs : Source.skipSpaces s with
    | nil =>
      cases hopening with
      | none => exact pure []
      | some h =>
        obtain ⟨before, htext, rfl⟩ := h
        exact failAt htext
    | cons c t =>
      rw [hs] at hsuffix
      -- what is left after the next item can be read in the rounds that are left
      have later {r : List Char} (h : IsRest r (c :: t)) : r.length < n := by
        have := (h.trans_suffix hsuffix).2
        omega
      dsimp only [List.head?_cons]
      split
      · exact readLiteral.bind fun value r hr => map (ih hopening (later (readLiteral_isRest hr)))
      · refine atComment.bind_ok ?_
        split
        · exact readComment.bind fun comment r hr => map (ih hopening (later (readComment_isRest hr)))
        · rw [hopening.isSome_eq]
          split
          · exact advance_cons.bind_ok (pure [])
          · refine readSuperCallIf.bind_ok ?_
            cases hcall : if opening.isSome then Source.readSuperCall (c :: t) else none with
            | some p =>
              have hr : IsRest p.2 (c :: t) := by
                split at hcall
                · exact readSuperCall_isRest hcall
                · contradiction
              exact map (ih hopening (later hr))
            | none =>
              refine readHead.bind fun h r hr => peek.bind_ok ?_
              have hr := readHead_isRest hr
              dsimp only
              split
              · rename_i heq
                obtain ⟨u, rfl⟩ := List.head?_eq_some_iff.1 heq
                refine position_bind fun before hbefore => expect_cons.bind_ok ?_
                have hu : IsRest u (c :: t) := .suffix_trans (List.suffix_cons _ u) hr
                refine (ih (.some ⟨before, hbefore, rfl⟩) (later hu)).bind fun content v hv => ?_
                exact map (ih hopening (later (.suffix_trans (contentOf_suffix hv) hu)))
              · rename_i hne
                split
                · exact absurd rfl hne
                · exact map (ih hopening (later hr))

/-! ## Documents -/

theorem readLeadingCommentsFor (hn : s.length < n) :
    Follows text (readLeadingCommentsFor n) s (readLeadingComments s) := by
  induction n generalizing s with
  | zero => exact absurd hn (Nat.not_lt_zero _)
  | succ n ih =>
    rw [readLeadingComments_eq]
    refine skipSpaces.bind_ok (atComment.bind_ok ?_)
    split
    · refine readComment.bind fun comment r hr => map (ih ?_)
      have := ((readComment_isRest hr).trans_suffix (skipSpaces_suffix s)).2
      omega
    · exact pure []

theorem readBlockName : Follows text readBlockName s (Source.readBlockName s) := by
  refine peek.bind_ok ?_
  split
  · rename_i heq
    obtain ⟨t, rfl⟩ := List.head?_eq_some_iff.1 heq
    rw [readBlockName_sign]
    refine expect_cons.bind_ok (readName.bind_ok ?_)
    cases Source.readName .block t with
    | none => exact fail
    | some p => exact pure _
  · rename_i hne
    unfold Source.readBlockName
    split
    · exact absurd rfl hne
    · exact pure none

/-- nothing is left of the source after its document -/
theorem readDocument : Follows text readDocument s ((Source.readDocument s).map fun block => (block, [])) := by
  have hread : (Source.readDocument s).map (fun block => (block, [])) =
      (readLeadingComments s).bind fun p =>
        (Source.readBlockName p.2).bind fun q => (contentOf none q.2).map fun c => (⟨q.1, p.1 ++ c.1⟩, c.2) := by
    rw [readDocument_eq_bind]
    rcases readLeadingComments s with f | p
    · rfl
    dsimp only [Except.bind]
    rcases Source.readBlockName p.2 with f | q
    · rfl
    dsimp only
    cases hcontent : contentOf none q.2 with
    | error f => rfl
    | ok c =>
      simp only [Except.map]
      rw [contentOf_none_rest hcontent]
  rw [hread]
  refine rounds_bind fun n hn => (readLeadingCommentsFor hn).bind fun comments r _ => ?_
  refine readBlockName.bind fun name t _ => ?_
  exact rounds_bind fun m hm => (readContentFor .none hm).map

end Follows

/-! ## Whole sources -/

theorem At.isBoundary {text s : List Char} {p : Place} (h : At text p s) :
    ∀ n ∈ p.pos :: p.trail, IsBoundary text n := by
  obtain ⟨before, htext, hpos⟩ := h.here
  exact List.forall_mem_cons.2 ⟨⟨before, s, htext, hpos.symm⟩, h.inside⟩

/-- Reading a source with a cursor ends, with the tree or the error that `parse` gives. The cursor never goes back, and
all offsets at which it was are boundaries of characters in the source; no cut failed. It ends at the end of the source
if there is a tree, and the offset of an error is a boundary, too. -/
theorem cursor_stays_inside (s : String) :
    (∀ n ∈ (run s).2.pos :: (run s).2.trail, (String.Pos.Raw.mk n).IsValid s ∧ n ≤ s.utf8ByteSize) ∧
    ((run s).2.pos :: (run s).2.trail).Pairwise (· ≥ ·) ∧
    match (run s).1 with
    | .ok block => parse s = .ok block ∧ (run s).2.pos = s.utf8ByteSize
    | .error (.fault kind offset) =>
      parse s = .error (.atOffset kind s.toList offset) ∧ (String.Pos.Raw.mk offset).IsValid s ∧
        offset ≤ s.utf8ByteSize
    | .error .outside => False
    | .error .exhausted => False := by
  have hvalid {n : Nat} (h : IsBoundary s.toList n) : (String.Pos.Raw.mk n).IsValid s ∧ n ≤ s.utf8ByteSize :=
    ⟨isBoundary_iff_isValid.1 h, byteSize_toList s ▸ h.le⟩
  have hfollows := @Follows.readDocument s.toList s.toList ⟨0, []⟩ (.start s.toList)
  unfold parse run
  cases hread : Source.readDocument s.toList with
  | ok block =>
    rw [hread] at hfollows
    obtain ⟨q, hq, hat⟩ := hfollows
    rw [hq]
    refine ⟨fun n hn => hvalid (hat.isBoundary n hn), hat.forward, rfl, ?_⟩
    obtain ⟨before, htext, hpos⟩ := hat.here
    rw [List.append_nil] at htext
    rw [hpos, ← htext, byteSize_toList]
  | error f =>
    rw [hread] at hfollows
    obtain ⟨q, t, before, hq, hat, htext⟩ := hfollows
    rw [hq]
    refine ⟨fun n hn => hvalid (hat.isBoundary n hn), hat.forward, ?_, hvalid ⟨before, f.rest, htext, rfl⟩⟩
    unfold ParseError.atOffset
    rw [htext, takeBytes_byteSize_append, dropBytes_byteSize_append]
    exact congrArg Except.error (Fault.locate_append f.kind before f.rest)

/-- text with letters of two bytes: a value without quotes, a super call and a comment are each passed over in one move,
and an error at a backslash lies behind where the cursor has come to -/
theorem accents_are_not_cut :
    run "p(a=é) { super! } // é" =
        (.ok ⟨none, [.element ⟨false, some "p", none, some ⟨none, [⟨"a", some "é"⟩]⟩, some [.superCall {}]⟩,
          .comment " é" false]⟩, ⟨24, [21, 20, 19, 18, 17, 16, 10, 9, 8, 7, 6, 4, 3, 2, 1, 0]⟩) ∧
      (∀ n ∈ [24, 21, 20, 19, 18, 17, 16, 10, 9, 8, 7, 6, 4, 3, 2, 1, 0],
        (String.Pos.Raw.mk n).IsValid "p(a=é) { super! } // é" ∧ n ≤ "p(a=é) { super! } // é".utf8ByteSize) ∧
      run "'é\\é'" = (.error (.fault (.unknownEscape 'é') 3), ⟨6, [4, 3, 1, 0]⟩) ∧
      parse "'é\\é'" = .error (.atOffset (.unknownEscape 'é') "'é\\é'".toList 3) ∧
      (String.Pos.Raw.mk 3).IsValid "'é\\é'" := by
  have hread : run "p(a=é) { super! } // é" =
      (.ok ⟨none, [.element ⟨false, some "p", none, some ⟨none, [⟨"a", some "é"⟩]⟩, some [.superCall {}]⟩,
        .comment " é" false]⟩, ⟨24, [21, 20, 19, 18, 17, 16, 10, 9, 8, 7, 6, 4, 3, 2, 1, 0]⟩) := by decide +kernel
  have hfails : run "'é\\é'" = (.error (.fault (.unknownEscape 'é') 3), ⟨6, [4, 3, 1, 0]⟩) := by decide +kernel
  have hinside := (cursor_stays_inside "p(a=é) { super! } // é").1
  have herror := (cursor_stays_inside "'é\\é'").2.2
  rw [hread] at hinside
  rw [hfails] at herror
  exact ⟨hread, hinside, hfails, herror.1, herror.2.1⟩

end BlockTemplates.Cursor
