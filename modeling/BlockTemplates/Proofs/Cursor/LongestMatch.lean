/-
Names and super calls by their grammar. An identifier is a letter, for elements and attributes also an underscore, and
then letters, digits, hyphens and underscores as many as there are; a name is an identifier, for tags and attributes
also two of them with a colon between. Of the names at the front of a text the longest one is read, which ends before
the colon where no identifier follows it; a super call is matched where one of `super!` and `super.name!` stands.

The grammar says what these texts are and nothing about how they are found; its characters are given by their ranges.

Main statements: `longest_eq_iff` (the text that is taken for a name is the longest name, or nothing),
`readSuperCall_eq_some` (the super calls that are read are those of the grammar), `matchSuperCall_eq` (matching with the
cursor finds what can be read, and takes nothing off) and `longest_match`.
-/
import BlockTemplates.Proofs.Cursor.Words
import Mathlib.Data.List.Induction

namespace BlockTemplates.Source

open Markup

/-! ## The grammar -/

namespace Grammar

def Letter (c : Char) : Prop := 'a' ≤ c ∧ c ≤ 'z' ∨ 'A' ≤ c ∧ c ≤ 'Z'

def Digit (c : Char) : Prop := '0' ≤ c ∧ c ≤ '9'

inductive Ident (k : NameKind) : List Char → Prop
  | letter {c} : Letter c → Ident k [c]
  | underscore : k = .element ∨ k = .attr → Ident k ['_']
  | snoc {w c} : Ident k w → Letter c ∨ Digit c ∨ c = '-' ∨ c = '_' → Ident k (w ++ [c])

inductive Name (k : NameKind) : List Char → Prop
  | ident {w} : Ident k w → Name k w
  | namespaced {ns n} : k = .tag ∨ k = .attr → Ident k ns → Ident k n → Name k (ns ++ ':' :: n)

/-- the longest name at the front of a text, the empty text if no name stands there -/
inductive Longest (k : NameKind) (s : List Char) : List Char → Prop
  | name {w} : Name k w → w <+: s → (∀ v, Name k v → v <+: s → v.length ≤ w.length) → Longest k s w
  | absent : (∀ v, Name k v → ¬ v <+: s) → Longest k s []

/-- how a super call is written -/
inductive Call : SuperCall → List Char → Prop
  | bare : Call ⟨none⟩ "super!".toList
  | named {n : String} : Name .element n.toList → Call ⟨some n⟩ ("super.".toList ++ n.toList ++ ['!'])

end Grammar

/-! ## Characters -/

section

variable {k : NameKind} {c : Char}

theorem isAlpha_iff : c.isAlpha = true ↔ Grammar.Letter c := by
  unfold Char.isAlpha Char.isUpper Char.isLower
  simp only [Bool.or_eq_true, Bool.and_eq_true, decide_eq_true_eq]
  exact or_comm

theorem isDigit_iff : c.isDigit = true ↔ Grammar.Digit c := by
  unfold Char.isDigit
  simp only [Bool.and_eq_true, decide_eq_true_eq]
  exact Iff.rfl

theorem isFirst_iff : k.isFirst c = true ↔ Grammar.Letter c ∨ (k = .element ∨ k = .attr) ∧ c = '_' := by
  have hkind : k.underscoreFirst = true ↔ k = .element ∨ k = .attr := by cases k <;> decide
  rw [NameKind.isFirst, Bool.or_eq_true, Bool.and_eq_true, isAlpha_iff, hkind, beq_iff_eq]

theorem isNameChar_iff :
    isNameChar c = true ↔ Grammar.Letter c ∨ Grammar.Digit c ∨ c = '-' ∨ c = '_' := by
  unfold isNameChar Char.isAlphanum
  simp only [Bool.or_eq_true, beq_iff_eq, isAlpha_iff, isDigit_iff, or_assoc]

end

/-! ## Names -/

section

variable {k : NameKind} {s r w : List Char}

theorem isIdent_iff : IsIdent k w ↔ Grammar.Ident k w := by
  constructor
  · rintro ⟨c, cs, rfl, hc, hcs⟩
    -- the grammar lets an identifier grow at its end
    induction cs using List.reverseRecOn with
    | nil =>
      rcases isFirst_iff.1 hc with hletter | ⟨hkind, rfl⟩
      · exact .letter hletter
      · exact .underscore hkind
    | append_singleton cs d ih =>
      have hd := isNameChar_iff.1 (hcs d List.mem_concat_self)
      exact .snoc (ih fun e he => hcs e (List.mem_append_left _ he)) hd
  · intro h
    induction h with
    | letter hc => exact ⟨_, [], rfl, isFirst_iff.2 (.inl hc), by simp⟩
    | underscore hkind => exact ⟨_, [], rfl, isFirst_iff.2 (.inr ⟨hkind, rfl⟩), by simp⟩
    | @snoc w d _ hd ih =>
      obtain ⟨c, cs, rfl, hc, hcs⟩ := ih
      refine ⟨c, cs ++ [d], rfl, hc, fun e he => ?_⟩
      rcases List.mem_append.1 he with he | he
      · exact hcs e he
      · obtain rfl := List.mem_singleton.1 he
        exact isNameChar_iff.2 hd

theorem isNameText_iff : IsNameText k w ↔ Grammar.Name k w := by
  have hkind : k.namespaced = true ↔ k = .tag ∨ k = .attr := by cases k <;> decide
  constructor
  · rintro (h | ⟨hk, ns, n, hns, hn, rfl⟩)
    · exact .ident (isIdent_iff.1 h)
    · exact .namespaced (hkind.1 hk) (isIdent_iff.1 hns) (isIdent_iff.1 hn)
  · rintro (h | ⟨hk, hns, hn⟩)
    · exact .inl (isIdent_iff.2 h)
    · exact .inr ⟨hkind.2 hk, _, _, isIdent_iff.2 hns, isIdent_iff.2 hn, rfl⟩

theorem longest_eq_iff : k.longest s = w ↔ Grammar.Longest k s w := by
  have hname (hne : k.longest s ≠ []) : Grammar.Name k (k.longest s) := isNameText_iff.1 (longest_isNameText hne)
  have hfront := longest_isPrefix k s
  constructor
  · rintro rfl
    by_cases hnil : k.longest s = []
    · rw [hnil]
      exact .absent fun v hv hs => noName_of_longest hnil v (isNameText_iff.2 hv) hs
    · exact .name (hname hnil) hfront fun v hv hs => ((isNameText_iff.2 hv).isPrefix_longest hs).length_le
  · rintro (⟨hw, hs, hmax⟩ | hnone)
    -- a name at the front is part of the text that is taken, and all of it if there is no longer one
    · have hpart := (isNameText_iff.2 hw).isPrefix_longest hs
      have hne : k.longest s ≠ [] := fun h => (isNameText_iff.2 hw).ne_nil (List.prefix_nil.1 (h ▸ hpart))
      exact (hpart.eq_of_length_le (hmax _ (hname hne) hfront)).symm
    · by_contra hne
      exact hnone _ (hname hne) hfront

/-- reading takes the longest name off, or finds none -/
theorem readName_longest (h : k.longest s = w) (hs : s = w ++ r) :
    readName k s = if w = [] then none else some (String.ofList w, r) := by
  unfold readName
  rw [h]
  split
  · rfl
  · rename_i hne
    rw [if_neg hne, hs, List.drop_left]

end

/-! ## Super calls -/

section

variable {call : SuperCall} {s r w : List Char}

theorem call_iff :
    Grammar.Call call w ↔ w = superCallText call ∧ ∀ name, call.elementName = some name → IsName .element name := by
  constructor
  · rintro (_ | hname)
    · exact ⟨rfl, nofun⟩
    · refine ⟨rfl, fun name h => ?_⟩
      obtain rfl := Option.some.inj h
      exact isNameText_iff.2 hname
  · rintro ⟨rfl, h⟩
    obtain ⟨_ | name⟩ := call
    · exact .bare
    · exact .named (isNameText_iff.1 (h name rfl))

theorem readSuperCall_eq_some : readSuperCall s = some (call, r) ↔ ∃ w, Grammar.Call call w ∧ s = w ++ r := by
  constructor
  · intro h
    exact ⟨_, call_iff.2 ⟨rfl, readSuperCall_isName h⟩, readSuperCall_eq_append h⟩
  · rintro ⟨w, hcall, rfl⟩
    obtain ⟨rfl, hname⟩ := call_iff.1 hcall
    exact readSuperCall_word hname r

end

end BlockTemplates.Source

namespace BlockTemplates.Cursor

open Text Markup Source

/-! ## Sizes -/

theorem byteSize_name {k : NameKind} {name : String} (h : IsName k name) : byteSize name.toList = name.length := by
  rw [← String.length_toList]
  refine byteSize_ascii fun c hc => ?_
  rcases Bool.or_eq_true _ _ ▸ h.chars c hc with hname | hcolon
  · exact ascii_of_isNameChar hname
  · obtain rfl := eq_of_beq hcolon
    decide

theorem superCallLength_eq {call : SuperCall} {w : List Char} (h : Grammar.Call call w) :
    superCallLength call = byteSize w := by
  obtain ⟨rfl, hname⟩ := call_iff.1 h
  obtain ⟨_ | name⟩ := call
  · rfl
  · simp only [superCallText, byteSize_append, byteSize_name (hname name rfl), superCallLength]
    show 7 + name.length = 6 + name.length + 1
    omega

/-! ## Looking ahead -/

/-- the reading leaves the cursor where it is, whatever the source and the place are -/
def Stays {α : Type} (m : Reading α) : Prop := ∀ text p, (m text p).2 = p

section

variable {α β : Type} {m : Reading α} {k : α → Reading β}

theorem Stays.bind (hm : Stays m) (hk : ∀ a, Stays (k a)) : Stays (m >>= k) := by
  intro text p
  rcases hrun : m text p with ⟨x, q⟩
  obtain rfl : q = p := by rw [← hm text p, hrun]
  rw [run_bind, hrun]
  cases x with
  | error e => rfl
  | ok a => exact hk a text q

theorem stays_pure (a : α) : Stays (pure a : Reading α) := fun _ _ => rfl

theorem stays_cut (n : Nat) (s : List Char) : Stays (cut n s) := by
  unfold cut
  split
  · exact stays_pure _
  · exact fun _ _ => rfl

theorem stays_rest : Stays rest := by
  refine Stays.bind (fun _ _ => rfl) fun here => Stays.bind (fun _ _ => rfl) fun text => ?_
  exact (stays_cut here text).bind fun _ => stays_pure _

theorem stays_matchTarget (target : List Char) : Stays (matchTarget target) := by
  unfold matchTarget
  dsimp only
  split
  · exact stays_pure none
  · refine (stays_cut _ _).bind fun parts => ?_
    split
    · exact stays_pure _
    · exact stays_pure none

theorem stays_matchSuperCall : Stays matchSuperCall := by
  refine stays_rest.bind fun s => ?_
  split
  · exact stays_pure none
  · split
    · exact (stays_matchTarget _).bind fun _ => stays_pure _
    · split
      · exact stays_pure _
      · exact stays_pure none

end

/-! ## The cursor -/

section

variable {text s r w : List Char} {p q : Place}

/-- between two places lie as many bytes as the text between them has -/
theorem At.pos_eq (hp : At text p s) (hs : s = w ++ r) (hq : At text q r) : q.pos = p.pos + byteSize w := by
  obtain ⟨before, htext, hpos⟩ := hp.here
  obtain ⟨before', htext', hpos'⟩ := hq.here
  rw [htext, hs, ← List.append_assoc] at htext'
  obtain rfl := List.append_cancel_right htext'
  rw [hpos, hpos', byteSize_append]

theorem attempt_readName {k : NameKind} (hw : k.longest s = w) (hs : s = w ++ r) :
    attempt (Source.readName k s) s = (if w = [] then none else some (String.ofList w), r) := by
  rw [readName_longest hw hs]
  by_cases hnil : w = []
  · subst hnil
    rw [if_pos rfl, if_pos rfl, hs]
    rfl
  · rw [if_neg hnil, if_neg hnil]
    rfl

theorem readName_moves {k : NameKind} (hp : At text p s) (hw : k.longest s = w) (hs : s = w ++ r) :
    ∃ q, readName k text p = (.ok (if w = [] then none else some (String.ofList w)), q) ∧
      q.pos = p.pos + byteSize w := by
  have hfollows := @Follows.readName text s k
  rw [attempt_readName hw hs] at hfollows
  obtain ⟨q, hq, hat⟩ := hfollows p hp
  exact ⟨q, hq, hp.pos_eq hs hat⟩

/-- what is matched is what can be read, with its length instead of what follows it -/
theorem matchSuperCall_eq (hp : At text p s) :
    matchSuperCall text p =
      (.ok ((Source.readSuperCall s).map fun c => (superCallLength c.1, c.1.elementName)), p) := by
  obtain ⟨found, hfollows, hfound⟩ := @Follows.matchSuperCall text s
  obtain ⟨q, hq, -⟩ := hfollows p hp
  obtain rfl : q = p := by rw [← stays_matchSuperCall text p, hq]
  rw [hq]
  cases found with
  | none =>
    rw [hfound]
    rfl
  | some found =>
    obtain ⟨w, r, rfl, hlength, hread⟩ := hfound
    obtain ⟨v, hv, heq⟩ := readSuperCall_eq_some.1 hread
    obtain rfl := List.append_cancel_right heq
    rw [hread, Option.map_some, superCallLength_eq hv, ← hlength]

theorem matched_eq_some {length : Nat} {name : Option String} :
    ((Source.readSuperCall s).map fun c => (superCallLength c.1, c.1.elementName)) = some (length, name) ↔
      ∃ w r, Grammar.Call ⟨name⟩ w ∧ s = w ++ r ∧ length = byteSize w := by
  rw [Option.map_eq_some_iff]
  constructor
  · rintro ⟨⟨call, r⟩, hread, heq⟩
    obtain ⟨rfl, rfl⟩ := Prod.mk.inj heq
    obtain ⟨w, hw, hs⟩ := readSuperCall_eq_some.1 hread
    exact ⟨w, r, hw, hs, superCallLength_eq hw⟩
  · rintro ⟨w, r, hw, hs, rfl⟩
    exact ⟨(⟨name⟩, r), readSuperCall_eq_some.2 ⟨w, hw, hs⟩, Prod.ext (superCallLength_eq hw) rfl⟩

end

/-- **Names and super calls are matched by the longest part that their grammar allows.** For every text and each kind of
names, one front part of the text is the longest name, or is empty if there is no name. It has the measured number of
bytes; reading takes it off, and a cursor that has the text left moves on by exactly these bytes. A super call is
matched if and only if one stands at the front, with its length in bytes and its target, and the cursor stays where it
is. -/
theorem longest_match (k : NameKind) (s : List Char) :
    (∃ w r, (∀ v, Grammar.Longest k s v ↔ v = w) ∧ s = w ++ r ∧ nameLength k (utf8 s) = byteSize w ∧
      Source.readName k s = (if w = [] then none else some (String.ofList w, r)) ∧
      ∀ text p, At text p s → ∃ q,
        readName k text p = (.ok (if w = [] then none else some (String.ofList w)), q) ∧
          q.pos = p.pos + byteSize w) ∧
    (∀ call r, Source.readSuperCall s = some (call, r) ↔ ∃ w, Grammar.Call call w ∧ s = w ++ r) ∧
    ∃ found, (∀ length name, found = some (length, name) ↔
        ∃ w r, Grammar.Call ⟨name⟩ w ∧ s = w ++ r ∧ length = byteSize w) ∧
      found = ((Source.readSuperCall s).map fun c => (superCallLength c.1, c.1.elementName)) ∧
      ∀ text p, At text p s → matchSuperCall text p = (.ok found, p) := by
  refine ⟨?_, fun _ _ => readSuperCall_eq_some, _, fun _ _ => matched_eq_some, rfl, fun _ _ => matchSuperCall_eq⟩
  obtain ⟨r, hs⟩ := longest_isPrefix k s
  have hunique (v : List Char) : Grammar.Longest k s v ↔ v = k.longest s := by
    rw [← longest_eq_iff]
    exact eq_comm
  exact ⟨k.longest s, r, hunique, hs.symm, nameLength_utf8 k s, readName_longest rfl hs.symm,
    fun _ _ hp => readName_moves hp rfl hs.symm⟩

/-- an attribute list behind its parenthesis, with a super call as its first entry -/
def superEntry : List Char := "super.h1!,b)".toList

theorem superEntry_is_matched :
    At ('(' :: superEntry) ⟨1, [0]⟩ superEntry ∧
      nameLength .attr (utf8 superEntry) = 5 ∧
      (∃ q, readName .attr ('(' :: superEntry) ⟨1, [0]⟩ = (.ok (some "super"), q) ∧ q.pos = 6) ∧
      matchSuperCall ('(' :: superEntry) ⟨1, [0]⟩ = (.ok (some (9, some "h1")), ⟨1, [0]⟩) := by
  have hat : At ('(' :: superEntry) ⟨1, [0]⟩ superEntry :=
    { here := ⟨['('], rfl, rfl⟩
      inside := List.forall_mem_singleton.2 ⟨[], _, rfl, rfl⟩
      forward := by decide }
  obtain ⟨⟨w, r, hlongest, -, hlength, -, hread⟩, -, found, hfound, -, hmatch⟩ := longest_match .attr superEntry
  obtain rfl : "super".toList = w := (hlongest _).1 (longest_eq_iff.1 (by decide))
  have hone : Grammar.Letter 'h' ∧ Grammar.Digit '1' := by
    unfold Grammar.Letter Grammar.Digit
    decide
  have hname : Grammar.Name .element "h1".toList :=
    .ident (@Grammar.Ident.snoc _ ['h'] '1' (.letter hone.1) (.inr (.inl hone.2)))
  obtain rfl := (hfound 9 (some "h1")).2 ⟨_, ",b)".toList, .named hname, rfl, rfl⟩
  exact ⟨hat, hlength, hread _ _ hat, hmatch _ _ hat⟩

/-- no identifier follows the colon, so the name ends before it -/
example : nameLength .tag (utf8 "svg:/x".toList) = 3 := by decide

end BlockTemplates.Cursor
