/-
The readings of the smallest parts of a document: spaces, names, super calls, comments and literals. Each follows the
reader of the same name: the lengths by which the cursor moves on, and the offsets at which the source is cut, are sizes
of parts of the text.

Main statements: one lemma for each reading, of which `readComment`, `skipGap` and `readLiteral` are the last.
-/
import BlockTemplates.Proofs.Cursor.Follows
import BlockTemplates.Proofs.Faults.Meaning

namespace BlockTemplates.Source

/-! ## The readers, step by step -/

theorem eat_eq_some {w s r : List Char} : eat w s = some r ↔ s = w ++ r := by
  unfold eat
  constructor
  · intro h
    split at h
    · rename_i hprefix
      obtain ⟨t, rfl⟩ := List.isPrefixOf_iff_prefix.1 hprefix
      rw [List.drop_left] at h
      rw [Option.some.inj h]
    · contradiction
  · rintro rfl
    rw [if_pos (List.isPrefixOf_iff_prefix.2 (List.prefix_append w r)), List.drop_left]

theorem readSuperCall_of_eat {s : List Char} (h : eat "super".toList s = none) : readSuperCall s = none := by
  unfold readSuperCall
  split
  · cases h.symm.trans (eat_eq_some.2 rfl)
  · cases h.symm.trans (eat_eq_some.2 rfl)
  · rfl

theorem readSuperCall_target (u : List Char) :
    readSuperCall ("super".toList ++ '.' :: u) =
      match readName .element u with
      | some (name, '!' :: r) => some (⟨some name⟩, r)
      | _ => none := rfl

theorem readHex_eq_some {count : Nat} {s r : List Char} {c : Char} (h : readHex count s = some (c, r)) :
    ∃ ds, ds.length = count ∧ (hexNumber? ds).bind charOfCode? = some c ∧ s = ds ++ r := by
  unfold readHex at h
  split at h
  · rename_i hlength
    obtain ⟨d, hd, heq⟩ := Option.map_eq_some_iff.1 h
    obtain ⟨rfl, rfl⟩ := Prod.mk.inj heq
    exact ⟨s.take count, hlength, hd, (List.take_append_drop count s).symm⟩
  · contradiction

end BlockTemplates.Source

namespace BlockTemplates.Cursor

open Text Markup Source

/-- what comes of a reader that takes nothing off if it finds nothing -/
def attempt {α : Type} (x : Option (α × List Char)) (s : List Char) : Option α × List Char :=
  match x with
  | some (a, r) => (some a, r)
  | none => (none, s)

/-! ## Lengths -/

/-- the search for the end of a comment stops where its text ends -/
theorem findText?_commentEnd {v r : List Char} (h : Unclosed v) :
    findText? ['*', '/'] (v ++ '*' :: '/' :: r) = some (byteSize v) := by
  induction v with
  | nil => rfl
  | cons c v ih =>
    have hv : Unclosed v := fun hin => h (hin.trans (List.suffix_cons c v).isInfix)
    have hc : ¬ ['*', '/'].isPrefixOf (c :: (v ++ '*' :: '/' :: r)) = true := by
      rw [List.isPrefixOf_iff_prefix]
      rintro ⟨u, hu⟩
      cases v with
      | nil => simp at hu
      | cons d v =>
        simp only [List.cons_append, List.cons.injEq] at hu
        obtain ⟨rfl, rfl, -⟩ := hu
        exact h ⟨[], v, rfl⟩
    rw [List.cons_append, findText?, if_neg hc, ih hv, byteSize_cons]
    rfl

theorem findText?_unclosed {s : List Char} (h : Unclosed s) : findText? ['*', '/'] s = none := by
  induction s with
  | nil => rfl
  | cons c s ih =>
    have hs : Unclosed s := fun hin => h (hin.trans (List.suffix_cons c s).isInfix)
    have hc : ¬ ['*', '/'].isPrefixOf (c :: s) = true := fun hc => h (List.isPrefixOf_iff_prefix.1 hc).isInfix
    rw [findText?, if_neg hc, ih hs]
    rfl

theorem findChar?_getD (p : Char → Bool) (s : List Char) :
    (findChar? p s).getD (byteSize s) = byteSize (s.takeWhile (!p ·)) := by
  rw [findChar?_eq]
  split
  · rename_i h
    have hs := List.takeWhile_append_dropWhile (p := (!p ·)) (l := s)
    rw [h, List.append_nil] at hs
    rw [Option.getD_none, hs]
  · rfl

/-- digits are characters of one byte -/
theorem byteSize_digits {ds : List Char} {n : Nat} (h : Denotes ds n) : byteSize ds = ds.length := by
  induction h with
  | nil => rfl
  | snoc _ hd ih =>
    have hlt := hd.toNat_lt
    rw [byteSize_append, ih, List.length_append, byteSize_cons, utf8Size_ascii (by omega)]
    rfl

theorem byteSize_number {ds : List Char} {c : Char} (h : (hexNumber? ds).bind charOfCode? = some c) :
    byteSize ds = ds.length := by
  obtain ⟨n, hn, -⟩ := Option.bind_eq_some_iff.1 h
  exact byteSize_digits (hexNumber?_eq_some.1 hn)

/-- cutting digits off by bytes is reading them -/
theorem cut?_hex (count : Nat) (s : List Char) :
    ((cut? count s).bind fun parts => (hexNumber? parts.1).bind charOfCode?) = (Source.readHex count s).map (·.1) := by
  ext c
  constructor
  · intro h
    obtain ⟨⟨ds, r⟩, hcut, hc⟩ := Option.bind_eq_some_iff.1 h
    obtain ⟨rfl, hsize⟩ := cut?_eq_some.1 hcut
    obtain ⟨n, hn, hcode⟩ := Option.bind_eq_some_iff.1 hc
    rw [byteSize_number hc] at hsize
    rw [readHex_append hsize hn hcode]
    rfl
  · intro h
    obtain ⟨⟨d, r⟩, hread, rfl⟩ := Option.map_eq_some_iff.1 h
    obtain ⟨ds, hlength, hc, rfl⟩ := readHex_eq_some hread
    rw [← hlength, ← byteSize_number hc, cut?_byteSize_append]
    exact hc

namespace Follows

variable {text s r before literal : List Char} {n : Nat}

/-! ## Elementary readings -/

theorem expect_ne {c : Char} (h : s.head? ≠ some c) :
    Follows text (expect c) s (.error ⟨.expected c s.head?, s⟩) := by
  refine peek.bind_ok ?_
  cases s with
  | nil => exact fail
  | cons d s =>
    have hne : d ≠ c := fun hd => h (congrArg some hd)
    show Follows text (if d = c then _ else Cursor.fail _) (d :: s) _
    rw [if_neg hne]
    exact fail

theorem skipSpacesFor (hn : s.length < n) :
    Follows text (skipSpacesFor n) s (.ok ((Source.skipSpaces s).head?, Source.skipSpaces s)) := by
  induction s generalizing n with
  | nil =>
    obtain ⟨m, rfl⟩ := Nat.exists_eq_add_of_lt hn
    exact peek.bind_ok (pure none)
  | cons c s ih =>
    obtain ⟨m, rfl⟩ := Nat.exists_eq_add_of_lt hn
    refine peek.bind_ok ?_
    show Follows text (if isSpace c then _ else _) (c :: s) _
    by_cases hc : isSpace c = true
    · rw [if_pos hc, skipSpaces_cons_space hc]
      exact skip_char.bind_ok (ih (by rw [List.length_cons]; omega))
    · rw [if_neg hc, Source.skipSpaces, List.dropWhile_cons_of_neg hc]
      exact pure (some c)

theorem skipSpaces : Follows text skipSpaces s (.ok ((Source.skipSpaces s).head?, Source.skipSpaces s)) :=
  rounds_bind fun _ => skipSpacesFor

/-! ## Names -/

theorem readName {k : NameKind} : Follows text (readName k) s (.ok (attempt (Source.readName k s) s)) := by
  refine rest.bind_ok ?_
  show Follows text (if nameLength k (utf8 s) = 0 then _ else _) s _
  rw [nameLength_utf8]
  cases hname : Source.readName k s with
  | none =>
    rw [longest_of_readName hname, if_pos byteSize_nil]
    exact pure none
  | some p =>
    obtain ⟨heq, hne, hs⟩ := readName_eq_some hname
    rw [← heq, if_neg (Nat.pos_iff_ne_zero.1 (byteSize_pos.2 hne))]
    refine (following hs rfl).bind_ok ((skip hs rfl).bind_ok ?_)
    rw [String.ofList_toList]
    exact pure _

theorem matchTarget (u : List Char) : ∃ found, Follows text (matchTarget u) s (.ok (found, s)) ∧
    match found with
    | none => ∀ name r, Source.readName .element u ≠ some (name, '!' :: r)
    | some (length, name) => ∃ w r, u = w ++ '!' :: r ∧ length = byteSize w ∧
        Source.readName .element u = some (name, '!' :: r) := by
  have hlength := nameLength_utf8 .element u
  unfold Cursor.matchTarget
  cases hname : Source.readName .element u with
  | none =>
    rw [longest_of_readName hname] at hlength
    exact ⟨none, by rw [hlength]; exact pure none, by simp⟩
  | some p =>
    obtain ⟨name, v⟩ := p
    obtain ⟨heq, hne, hu⟩ := readName_eq_some hname
    rw [← heq] at hlength
    have hpos := byteSize_pos.2 hne
    dsimp only
    rw [if_neg (by omega)]
    by_cases hmark : v.head? = some '!'
    · obtain ⟨r, rfl⟩ := List.head?_eq_some_iff.1 hmark
      exact ⟨_, (cut hu hlength).bind_ok (pure _), name.toList, r, hu, hlength, by rw [String.ofList_toList]⟩
    · refine ⟨none, (cut hu hlength).bind_ok ?_, fun name' r h => hmark ?_⟩
      · dsimp only
        rw [if_neg hmark]
        exact pure none
      · rw [(Prod.mk.inj (Option.some.inj h)).2]
        rfl

/-- what matching a super call tells is the length and the target of the one that can be read -/
theorem matchSuperCall : ∃ found, Follows text matchSuperCall s (.ok (found, s)) ∧
    match found with
    | none => Source.readSuperCall s = none
    | some (length, name) => ∃ w r, s = w ++ r ∧ length = byteSize w ∧ Source.readSuperCall s = some (⟨name⟩, r) := by
  cases hsuper : Source.eat "super".toList s with
  | none => exact ⟨none, rest.bind_ok (by rw [hsuper]; exact pure none), readSuperCall_of_eat hsuper⟩
  | some after =>
    obtain rfl := eat_eq_some.1 hsuper
    rcases after with _ | ⟨c, u⟩
    · exact ⟨none, rest.bind_ok (pure none), rfl⟩
    by_cases hdot : c = '.'
    · subst hdot
      obtain ⟨found, hfound, hread⟩ := @matchTarget text ("super".toList ++ '.' :: u) u
      refine ⟨_, rest.bind_ok (hfound.bind_ok (pure _)), ?_⟩
      have hcall := readSuperCall_target u
      rcases found with _ | ⟨length, name⟩
      · rw [Option.map_none]
        dsimp only
        rw [hcall]
        split
        · rename_i hname
          exact absurd hname (hread _ _)
        · rfl
      · obtain ⟨w, r, rfl, rfl, hname⟩ := hread
        rw [hname] at hcall
        refine ⟨"super.".toList ++ w ++ ['!'], r, ?_, ?_, hcall⟩
        · simp
        · simp only [byteSize_append]
          rfl
    · by_cases hmark : c = '!'
      · subst hmark
        exact ⟨_, rest.bind_ok (pure _), "super!".toList, u, rfl, rfl, rfl⟩
      · refine ⟨none, rest.bind_ok ?_, ?_⟩
        · have hno : Source.eat ['.'] (c :: u) = none := if_neg (by simpa [List.isPrefixOf] using Ne.symm hdot)
          rw [hsuper]
          dsimp only
          rw [hno]
          dsimp only
          rw [if_neg (by simpa using hmark)]
          exact pure none
        · show Source.readSuperCall ('s' :: 'u' :: 'p' :: 'e' :: 'r' :: c :: u) = none
          unfold Source.readSuperCall
          split
          · rename_i heq
            cases heq
            exact absurd rfl hmark
          · rename_i heq
            cases heq
            exact absurd rfl hdot
          · rfl

theorem readSuperCall : Follows text readSuperCall s (.ok (attempt (Source.readSuperCall s) s)) := by
  obtain ⟨found, hmatch, hread⟩ := @matchSuperCall text s
  refine hmatch.bind_ok ?_
  cases found with
  | none =>
    rw [hread]
    exact pure none
  | some p =>
    obtain ⟨w, r, hs, hsize, hcall⟩ := hread
    rw [hcall]
    exact (skip hs hsize).map_ok

theorem readSuperCallIf {allowed : Bool} : Follows text (readSuperCallIf allowed) s
    (.ok (attempt (if allowed then Source.readSuperCall s else none) s)) := by
  cases allowed with
  | true => exact readSuperCall
  | false => exact pure none

/-! ## Comments and gaps -/

theorem readComment : Follows text readComment s (Source.readComment s) := by
  refine position_bind fun before hbefore => ?_
  unfold Source.readComment
  split
  · rename_i s
    have hs := List.takeWhile_append_dropWhile (p := (!isLineEnd ·)) (l := s)
    have hlength := findChar?_getD isLineEnd s
    refine expect_cons.bind_ok (peek.bind_ok (advance_cons.bind_ok (rest.bind_ok ?_)))
    exact (skip hs.symm hlength).bind_ok (cut hs.symm hlength).map_ok
  · rename_i s
    refine expect_cons.bind_ok (peek.bind_ok (advance_cons.bind_ok (rest.bind_ok ?_)))
    cases hend : untilCommentEnd [] s with
    | none =>
      rw [findText?_unclosed (untilCommentEnd_eq_none hend)]
      exact failAt hbefore
    | some p =>
      obtain ⟨v, r⟩ := p
      obtain ⟨w, hv, hs, hw⟩ := untilCommentEnd_eq_some hend
      obtain rfl : v = w := hv
      have hskip : s = (v ++ ['*', '/']) ++ r := by rw [hs, List.append_assoc]; rfl
      have hfind := @findText?_commentEnd v r hw
      rw [← hs] at hfind
      rw [hfind]
      refine (skip hskip ?_).bind_ok (cut hs rfl).map_ok
      rw [byteSize_append]
      rfl
  · rename_i s hslash hstar
    refine expect_cons.bind_ok (peek.bind_ok ?_)
    split
    · rename_i heq
      obtain ⟨r, rfl⟩ := List.head?_eq_some_iff.1 heq
      exact absurd rfl (hslash r)
    · rename_i heq
      obtain ⟨r, rfl⟩ := List.head?_eq_some_iff.1 heq
      exact absurd rfl (hstar r)
    · exact fail
  · rename_i hne
    refine (expect_ne ?_).bind_error
    intro hhead
    obtain ⟨r, rfl⟩ := List.head?_eq_some_iff.1 hhead
    exact hne r rfl

theorem skipGapFor (hn : s.length < n) :
    Follows text (skipGapFor n) s ((Source.skipGap s).map fun r => (r.head?, r)) := by
  fun_induction Source.skipGap s generalizing n with
  | case1 s t hs f hc =>
    obtain ⟨m, rfl⟩ := Nat.exists_eq_add_of_lt hn
    refine skipSpaces.bind_ok ?_
    rw [hs]
    exact (readComment.of_eq hc).bind_error
  | case2 s t hs c r hc ih =>
    obtain ⟨m, rfl⟩ := Nat.exists_eq_add_of_lt hn
    refine skipSpaces.bind_ok ?_
    rw [hs]
    have hr := ((readComment_isRest hc).trans_suffix (hs ▸ skipSpaces_suffix s)).2
    exact (readComment.of_eq hc).bind_ok (ih (by omega))
  | case3 s hs =>
    obtain ⟨m, rfl⟩ := Nat.exists_eq_add_of_lt hn
    refine skipSpaces.bind_ok ?_
    split
    · rename_i heq
      obtain ⟨t, ht⟩ := List.head?_eq_some_iff.1 heq
      exact absurd ht (hs t)
    · exact pure _

theorem skipGap : Follows text skipGap s ((Source.skipGap s).map fun r => (r.head?, r)) :=
  rounds_bind fun _ => skipGapFor

/-! ## Literals -/

theorem readHex {count : Nat} {kind : ParseErrorKind} (h : text = before ++ r) :
    Follows text (readHex count kind (byteSize before)) s
      (match Source.readHex count s with
        | some p => .ok p
        | none => .error ⟨kind, r⟩) := by
  refine rest.bind_ok ?_
  rw [cut?_hex]
  cases hread : Source.readHex count s with
  | none => exact failAt h
  | some p =>
    obtain ⟨ds, hlength, hnumber, hs⟩ := readHex_eq_some hread
    refine (skip hs ?_).bind_ok (pure _)
    rw [byteSize_number hnumber, hlength]

theorem readEscape (hliteral : text = before ++ literal) (hs : text = r ++ '\\' :: s) :
    Follows text (readEscape (byteSize before)) s (Source.readEscape literal s) := by
  refine oneBack_bind hs rfl ?_
  unfold Source.readEscape
  split
  · exact advance_nil.bind_ok (failAt hliteral)
  · exact advance_cons.bind_ok (readHex hs)
  · exact advance_cons.bind_ok (readHex hs)
  · rename_i c s hx hu
    refine advance_cons.bind_ok ?_
    split
    · contradiction
    · cases ‹some c = some 'x'›
      exact absurd rfl hx
    · cases ‹some c = some 'u'›
      exact absurd rfl hu
    · rename_i heq
      cases heq
      cases simpleEscape? c with
      | none => exact failAt hs
      | some d => exact pure d

theorem readCharsFor {quote : Char} {read : List Char} (hliteral : text = before ++ literal) (hn : s.length < n) :
    Follows text (readCharsFor quote (byteSize before) n read) s (readChars quote literal read s) := by
  fun_induction readChars quote literal read s generalizing n with
  | case1 read =>
    obtain ⟨m, rfl⟩ := Nat.exists_eq_add_of_lt hn
    exact advance_nil.bind_ok (failAt hliteral)
  | case2 read s =>
    obtain ⟨m, rfl⟩ := Nat.exists_eq_add_of_lt hn
    refine advance_cons.bind_ok ?_
    dsimp only
    rw [if_pos rfl]
    exact pure _
  | case3 read s f hescape hquote =>
    obtain ⟨m, rfl⟩ := Nat.exists_eq_add_of_lt hn
    refine of_before fun r hr => advance_cons.bind_ok ?_
    dsimp only
    rw [if_neg hquote, if_pos rfl]
    exact ((readEscape hliteral hr).of_eq hescape).bind_error
  | case4 read s d u hescape hquote ih =>
    obtain ⟨m, rfl⟩ := Nat.exists_eq_add_of_lt hn
    refine of_before fun r hr => advance_cons.bind_ok ?_
    dsimp only
    rw [if_neg hquote, if_pos rfl]
    have hu := (readEscape_suffix hescape).length_le
    exact ((readEscape hliteral hr).of_eq hescape).bind_ok (ih (by rw [List.length_cons]; omega))
  | case5 read c s hquote hback hend =>
    obtain ⟨m, rfl⟩ := Nat.exists_eq_add_of_lt hn
    refine advance_cons.bind_ok ?_
    dsimp only
    rw [if_neg hquote, if_neg hback, if_pos hend]
    exact failAt hliteral
  | case6 read c s hquote hback hend ih =>
    obtain ⟨m, rfl⟩ := Nat.exists_eq_add_of_lt hn
    refine advance_cons.bind_ok ?_
    dsimp only
    rw [if_neg hquote, if_neg hback, if_neg hend]
    exact ih (by rw [List.length_cons]; omega)

theorem readLiteral : Follows text readLiteral s (Source.readLiteral s) := by
  refine position_bind fun before hbefore => peek.bind_ok ?_
  cases s with
  | nil => exact fail
  | cons c s =>
    unfold Source.readLiteral
    dsimp only [List.head?_cons]
    split
    · refine advance_cons.bind_ok (rounds_bind fun n hn => ?_)
      have hchars := @readCharsFor text s before (c :: s) n c [] hbefore hn
      cases hread : readChars c (c :: s) [] s with
      | error f => exact (hchars.of_eq hread).bind_error
      | ok p => exact (hchars.of_eq hread).map_ok
    · exact fail

end Follows

end BlockTemplates.Cursor
