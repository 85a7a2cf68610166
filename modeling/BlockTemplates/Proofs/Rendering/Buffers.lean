/-
Buffers hold operations in one form. Between operations of other kinds there is at most one literal, and none is empty.
What is kept of the operations that were pushed is how they are spelled: the characters of their literals one by one,
and the other operations where they stand. Lists in this form are equal when they are spelled alike, so a buffer does
not show into which pieces its text was cut, and it is what remains of the pushed operations when empty literals are
dropped and neighbouring ones joined. All operations of a compiled template have been through a buffer.

Main statements: `Canonical.unique` (one list for each spelling), `Canonical.push` and `letters_push` (what a push keeps
and what it adds), `toList_ofList` and `buffers_are_canonical`.
-/
import Mathlib.Data.List.Chain
import BlockTemplates.Proofs.Compiling.Warnings

namespace BlockTemplates

open Markup Render

namespace Render

/-! ## The form -/

def Op.isLiteral : Op → Bool
  | .literal _ => true
  | _ => false

/-- no literal is empty, and no two stand side by side -/
structure Canonical (ops : List Op) : Prop where
  filled : .literal "" ∉ ops
  apart : ops.IsChain fun op next => ¬ (op.isLiteral ∧ next.isLiteral)

/-- the characters of a literal, or the operation itself -/
def Op.letters : Op → List (Char ⊕ Op)
  | .literal text => text.toList.map .inl
  | op => [.inr op]

/-- how operations are spelled -/
def letters (ops : List Op) : List (Char ⊕ Op) := ops.flatMap Op.letters

/-- an operation before others; literals that meet there become one, of which `join` makes the text -/
def joinHead (join : String → String → String) : Op → List Op → List Op
  | .literal text, .literal next :: ops => .literal (join text next) :: ops
  | op, ops => op :: ops

/-- the operations without empty literals, and with neighbouring literals joined -/
def joined (ops : List Op) : List Op := (ops.filter (· ≠ .literal "")).foldr (joinHead (· ++ ·)) []

variable {op : Op} {ops xs ys : List Op}

@[simp] theorem letters_nil : letters [] = [] := rfl

@[simp] theorem letters_cons (op : Op) (ops : List Op) : letters (op :: ops) = op.letters ++ letters ops := rfl

@[simp] theorem letters_append (xs ys : List Op) : letters (xs ++ ys) = letters xs ++ letters ys :=
  List.flatMap_append

theorem Op.letters_eq_nil_iff : op.letters = [] ↔ op = .literal "" := by
  cases op with
  | literal text => simp [Op.letters]
  | _ => simp [Op.letters]

theorem isLiteral_iff_exists : op.isLiteral ↔ ∃ text, op = .literal text := by
  cases op with
  | literal text => exact iff_of_true rfl ⟨text, rfl⟩
  | _ => exact iff_of_false Bool.false_ne_true fun ⟨_, h⟩ => nomatch h

theorem letters_of_not_isLiteral (h : op.isLiteral = false) : op.letters = [.inr op] := by
  cases op with
  | literal text => contradiction
  | _ => rfl

/-! ## One list for each spelling -/

theorem Canonical.nil : Canonical [] := ⟨List.not_mem_nil, .nil⟩

theorem canonical_cons : Canonical (op :: ops) ↔
    op ≠ .literal "" ∧ (op.isLiteral → ∀ next ∈ ops.head?, next.isLiteral = false) ∧ Canonical ops := by
  constructor
  · rintro ⟨hfilled, hapart⟩
    rw [List.mem_cons, not_or] at hfilled
    rw [List.isChain_cons] at hapart
    refine ⟨Ne.symm hfilled.1, fun hop next hnext => ?_, hfilled.2, hapart.2⟩
    exact Bool.eq_false_iff.2 fun hliteral => hapart.1 next hnext ⟨hop, hliteral⟩
  · rintro ⟨hop, hapart, h⟩
    refine ⟨?_, ?_⟩
    · rw [List.mem_cons, not_or]
      exact ⟨Ne.symm hop, h.filled⟩
    · rw [List.isChain_cons]
      exact ⟨fun next hnext hboth => Bool.false_ne_true ((hapart hboth.1 next hnext).symm.trans hboth.2), h.apart⟩

/-- the form is the same from behind -/
theorem Canonical.reverse (h : Canonical ops) : Canonical ops.reverse where
  filled := fun hmem => h.filled (List.mem_reverse.1 hmem)
  apart := List.isChain_reverse.2 (h.apart.imp fun _ _ hapart hboth => hapart ⟨hboth.2, hboth.1⟩)

/-- no characters come first where no literal does -/
theorem head?_letters (h : ∀ next ∈ ops.head?, next.isLiteral = false) (c : Char) :
    (letters ops).head? ≠ some (.inl c) := by
  cases ops with
  | nil => exact nofun
  | cons op ops =>
    rw [letters_cons, letters_of_not_isLiteral (h op rfl)]
    exact nofun

/-- characters are told from what follows them, where that begins with an operation -/
theorem append_inl_inj {cs ds : List Char} {us vs : List (Char ⊕ Op)} (hu : ∀ c, us.head? ≠ some (.inl c))
    (hv : ∀ c, vs.head? ≠ some (.inl c)) (h : cs.map Sum.inl ++ us = ds.map Sum.inl ++ vs) : cs = ds ∧ us = vs := by
  induction cs generalizing ds with
  | nil =>
    cases ds with
    | nil => exact ⟨rfl, h⟩
    | cons d ds => exact absurd (congrArg List.head? h) (hu d)
  | cons c cs ih =>
    cases ds with
    | nil => exact absurd (congrArg List.head? h).symm (hv c)
    | cons d ds =>
      rw [List.map_cons, List.map_cons, List.cons_append, List.cons_append, List.cons.injEq, Sum.inl.injEq] at h
      obtain ⟨hcs, hus⟩ := ih h.2
      exact ⟨h.1 ▸ hcs ▸ rfl, hus⟩

theorem Canonical.eq_nil (h : Canonical ops) (hletters : letters ops = []) : ops = [] := by
  cases ops with
  | nil => rfl
  | cons op ops =>
    rw [letters_cons, List.append_eq_nil_iff, Op.letters_eq_nil_iff] at hletters
    exact absurd hletters.1 (canonical_cons.1 h).1

/-- a list is spelled with a character first exactly if it begins with a literal -/
theorem Canonical.isLiteral_iff (h : Canonical (op :: ops)) :
    op.isLiteral ↔ ∃ c, (letters (op :: ops)).head? = some (.inl c) := by
  cases op with
  | literal text =>
    have htext : text.toList ≠ [] := by simpa using (canonical_cons.1 h).1
    obtain ⟨c, cs, hcs⟩ := List.exists_cons_of_ne_nil htext
    refine iff_of_true rfl ⟨c, ?_⟩
    rw [letters_cons, Op.letters, hcs]
    rfl
  | _ => exact iff_of_false Bool.false_ne_true fun ⟨_, hc⟩ => nomatch hc

/-- the first operation can be read off how a list is spelled -/
theorem Canonical.head_unique {x y : Op} (hx : Canonical (x :: xs)) (hy : Canonical (y :: ys))
    (h : letters (x :: xs) = letters (y :: ys)) : x = y ∧ letters xs = letters ys := by
  have hliteral : x.isLiteral ↔ y.isLiteral := by rw [hx.isLiteral_iff, hy.isLiteral_iff, h]
  rw [letters_cons, letters_cons] at h
  by_cases hl : x.isLiteral
  · obtain ⟨a, rfl⟩ := isLiteral_iff_exists.1 hl
    obtain ⟨b, rfl⟩ := isLiteral_iff_exists.1 (hliteral.1 hl)
    obtain ⟨htext, hrest⟩ := append_inl_inj (head?_letters ((canonical_cons.1 hx).2.1 rfl))
      (head?_letters ((canonical_cons.1 hy).2.1 rfl)) h
    exact ⟨congrArg Op.literal (String.toList_inj.1 htext), hrest⟩
  · rw [letters_of_not_isLiteral (Bool.eq_false_iff.2 hl),
      letters_of_not_isLiteral (Bool.eq_false_iff.2 fun hy => hl (hliteral.2 hy)),
      List.cons_append, List.cons_append, List.cons.injEq, Sum.inr.injEq] at h
    exact h

/-- **One list for each spelling.** -/
theorem Canonical.unique (hx : Canonical xs) (hy : Canonical ys) (h : letters xs = letters ys) : xs = ys := by
  induction xs generalizing ys with
  | nil => exact (hy.eq_nil h.symm).symm
  | cons x xs ih =>
    cases ys with
    | nil => exact hx.eq_nil h
    | cons y ys =>
      obtain ⟨rfl, hrest⟩ := hx.head_unique hy h
      rw [ih (canonical_cons.1 hx).2.2 (canonical_cons.1 hy).2.2 hrest]

/-! ## Joining -/

/-- the form is kept, if `join` makes no text empty -/
theorem Canonical.joinHead {join : String → String → String} (hjoin : ∀ {text} next, text ≠ "" → join text next ≠ "")
    (hop : op ≠ .literal "") (h : Canonical ops) : Canonical (joinHead join op ops) := by
  unfold Render.joinHead
  split
  · rename_i text next ops
    obtain ⟨-, hapart, h⟩ := canonical_cons.1 h
    have htext : text ≠ "" := fun heq => hop (congrArg Op.literal heq)
    exact canonical_cons.2 ⟨fun heq => hjoin next htext (Op.literal.inj heq), fun _ => hapart rfl, h⟩
  · rename_i hother
    refine canonical_cons.2 ⟨hop, fun hl next hnext => Bool.eq_false_iff.2 fun hl' => ?_, h⟩
    -- two literals that meet are the case before
    obtain ⟨text, rfl⟩ := isLiteral_iff_exists.1 hl
    obtain ⟨text', rfl⟩ := isLiteral_iff_exists.1 hl'
    obtain ⟨rest, rfl⟩ := List.head?_eq_some_iff.1 hnext
    exact hother text text' rest rfl rfl

theorem letters_joinHead (op : Op) (ops : List Op) :
    letters (joinHead (· ++ ·) op ops) = op.letters ++ letters ops := by
  unfold joinHead
  split
  · simp [Op.letters]
  · rfl

theorem letters_filter (ops : List Op) : letters (ops.filter (· ≠ .literal "")) = letters ops := by
  induction ops with
  | nil => rfl
  | cons op ops ih =>
    by_cases hop : op = .literal ""
    · subst hop
      rw [List.filter_cons_of_neg (by simp), ih]
      rfl
    · rw [List.filter_cons_of_pos (by simpa using hop), letters_cons, letters_cons, ih]

theorem letters_joined (ops : List Op) : letters (joined ops) = letters ops := by
  rw [← letters_filter ops, joined]
  induction ops.filter (· ≠ .literal "") with
  | nil => rfl
  | cons op ops ih => rw [List.foldr_cons, letters_joinHead, ih, letters_cons]

theorem canonical_joined (ops : List Op) : Canonical (joined ops) := by
  unfold joined
  have hfilled : ∀ op ∈ ops.filter (· ≠ .literal ""), op ≠ .literal "" := fun op hop => by
    simpa using List.of_mem_filter hop
  revert hfilled
  induction ops.filter (· ≠ .literal "") with
  | nil => exact fun _ => .nil
  | cons op ops ih =>
    intro hfilled
    rw [List.foldr_cons]
    refine .joinHead ?_ (hfilled op List.mem_cons_self) (ih fun op' hop' => hfilled op' (List.mem_cons_of_mem op hop'))
    intro text next htext heq
    exact htext (String.append_eq_empty_iff.1 heq).1

/-! ## Pushing -/

namespace Buffer

theorem toList_injective {b c : Buffer} (h : b.toList = c.toList) : b = c := by
  obtain ⟨rev⟩ := b
  obtain ⟨rev'⟩ := c
  exact congrArg Buffer.mk (List.reverse_injective h)

theorem push_literal_empty (b : Buffer) : b.push (.literal "") = b := rfl

/-- other than empty literals, operations are put before the reversed ones -/
theorem push_eq (b : Buffer) (h : op ≠ .literal "") :
    b.push op = ⟨joinHead (fun text last => last ++ text) op b.reversed⟩ := by
  obtain ⟨rev⟩ := b
  cases op with
  | literal text =>
    have htext : text ≠ "" := fun heq => h (congrArg Op.literal heq)
    rw [push, pushText, if_neg htext]
    cases rev with
    | nil => rfl
    | cons last rest => cases last <;> rfl
  | _ => rfl

/-- a push keeps the form -/
theorem canonical_push {b : Buffer} (h : Canonical b.toList) (op : Op) : Canonical (b.push op).toList := by
  by_cases hop : op = .literal ""
  · rw [hop]
    exact h
  · have hrev : Canonical b.reversed := List.reverse_reverse b.reversed ▸ h.reverse
    rw [push_eq b hop]
    refine (Canonical.joinHead (fun last htext heq => htext ?_) hop hrev).reverse
    exact (String.append_eq_empty_iff.1 heq).2

/-- and adds how the operation is spelled -/
theorem letters_push (b : Buffer) (op : Op) : letters (b.push op).toList = letters b.toList ++ op.letters := by
  by_cases hop : op = .literal ""
  · rw [hop, push_literal_empty, Op.letters_eq_nil_iff.2 rfl, List.append_nil]
  · rw [push_eq b hop]
    unfold toList joinHead
    split
    · rename_i hrev
      rw [hrev]
      simp [Op.letters]
    · simp

theorem canonical_pushAll {b : Buffer} (h : Canonical b.toList) (ops : List Op) : Canonical (b.pushAll ops).toList := by
  induction ops generalizing b with
  | nil => exact h
  | cons op ops ih => exact ih (canonical_push h op)

theorem letters_pushAll (b : Buffer) (ops : List Op) :
    letters (b.pushAll ops).toList = letters b.toList ++ letters ops := by
  induction ops generalizing b with
  | nil => exact (List.append_nil _).symm
  | cons op ops ih =>
    have hstep : b.pushAll (op :: ops) = (b.push op).pushAll ops := rfl
    rw [hstep, ih, letters_push, letters_cons, List.append_assoc]

theorem canonical_ofList (ops : List Op) : Canonical (ofList ops).toList :=
  canonical_pushAll (b := {}) .nil ops

theorem letters_ofList (ops : List Op) : letters (ofList ops).toList = letters ops := letters_pushAll {} ops

/-- what is in a buffer is what was pushed, without empty literals and with neighbouring ones joined -/
theorem toList_ofList (ops : List Op) : (ofList ops).toList = joined ops := by
  refine (canonical_ofList ops).unique (canonical_joined ops) ?_
  rw [letters_ofList, letters_joined]

theorem ofList_eq_iff_letters : ofList xs = ofList ys ↔ letters xs = letters ys := by
  constructor
  · intro h
    rw [← letters_ofList xs, ← letters_ofList ys, h]
  · intro h
    refine toList_injective ((canonical_ofList xs).unique (canonical_ofList ys) ?_)
    rw [letters_ofList, letters_ofList, h]

theorem ofList_eq_iff_joined : ofList xs = ofList ys ↔ joined xs = joined ys := by
  rw [← toList_ofList, ← toList_ofList]
  exact ⟨congrArg toList, toList_injective⟩

/-- a finished buffer pushed one operation after the other adds what was pushed into it -/
theorem pushAll_toList_ofList (xs ys : List Op) : (ofList xs).pushAll (ofList ys).toList = ofList (xs ++ ys) := by
  refine toList_injective ((canonical_pushAll (canonical_ofList xs) _).unique (canonical_ofList _) ?_)
  rw [letters_pushAll, letters_ofList, letters_ofList, letters_ofList, letters_append]

theorem isEmpty_ofList : (ofList ops).isEmpty ↔ ∀ op ∈ ops, op = .literal "" := by
  have hnil : (ofList ops).isEmpty ↔ (ofList ops).toList = [] := by
    rw [isEmpty, List.isEmpty_iff, toList, List.reverse_eq_nil_iff]
  have hspelled : (ofList ops).toList = [] ↔ letters ops = [] := by
    rw [← letters_ofList ops]
    exact ⟨fun h => by rw [h]; rfl, (canonical_ofList ops).eq_nil⟩
  rw [hnil, hspelled, letters, List.flatMap_eq_nil_iff]
  exact forall₂_congr fun op _ => Op.letters_eq_nil_iff

theorem isQuiet_iff : op.isQuiet ↔ op = .literal "" ∨ ∃ name, op = .invokeElement name := by
  cases op with
  | literal text => simp [Op.isQuiet]
  | invokeElement name => exact iff_of_true rfl (.inr ⟨name, rfl⟩)
  | _ => simp [Op.isQuiet]

theorem onlyInvocations_ofList :
    (ofList ops).onlyInvocations ↔ ∀ op ∈ ops, op = .literal "" ∨ ∃ name, op = .invokeElement name := by
  have hempty : ({} : Buffer).onlyInvocations = true := rfl
  rw [ofList, onlyInvocations_pushAll, hempty, Bool.true_and, List.all_eq_true]
  exact forall₂_congr fun op _ => isQuiet_iff

/-! ## Sequences of pushes -/

/-- the calls that add to a buffer -/
inductive Push where
  | text (s : String)
  | op (o : Op)
deriving DecidableEq, Repr

/-- the operation that a call adds -/
def Push.pushed : Push → Op
  | .text s => .literal s
  | .op o => o

def step (b : Buffer) : Push → Buffer
  | .text s => b.pushText s
  | .op o => b.push o

/-- the buffer after a sequence of calls -/
def after (pushes : List Push) : Buffer := pushes.foldl step {}

theorem step_eq_push (b : Buffer) (p : Push) : b.step p = b.push p.pushed := by
  cases p with
  | text s => rfl
  | op o => rfl

theorem after_eq_ofList (pushes : List Push) : after pushes = ofList (pushes.map Push.pushed) := by
  rw [after, ofList, pushAll, List.foldl_map]
  exact congrArg (List.foldl · {} pushes) (funext₂ step_eq_push)

end Buffer

end Render

/-! ## Compiled templates -/

/-- the operations of a level have been through buffers -/
theorem Level.Realises.canonical {l : Level} {ancestors : List Level} {r : Reading} (h : l.Realises ancestors r) :
    Canonical l.root ∧ ∀ p ∈ l.elements, Canonical p.2.render ∧ Canonical p.2.content := by
  constructor
  · rw [h.root]
    split
    · exact Buffer.canonical_ofList _
    · exact .nil
  · intro p hp
    rw [h.elements, List.mem_reverse] at hp
    obtain ⟨d, -, rfl⟩ := List.mem_map.1 hp
    exact ⟨Buffer.canonical_ofList _, Buffer.canonical_ofList _⟩

theorem Realised.canonical {rs : List Reading} {ls : List Level} (h : Realised rs ls) {l : Level} (hl : l ∈ ls) :
    Canonical l.root ∧ ∀ p ∈ l.elements, Canonical p.2.render ∧ Canonical p.2.content := by
  induction h with
  | nil => contradiction
  | cons hrealises _ ih =>
    rcases List.mem_cons.1 hl with rfl | hl
    · exact hrealises.canonical
    · exact ih hl

/-- **Buffers are a canonical form.** After every sequence of calls a buffer has no empty literal and no two literals
side by side; it holds what was pushed without empty literals and with neighbouring ones joined; it is empty exactly if
only empty text was pushed, and has only invocations exactly if only those and empty text were. Two sequences make the
same buffer exactly if they are the same after joining, and exactly if they are spelled alike, however the text was cut.
A finished buffer can be pushed operation by operation in place of what was pushed into it. All operations of compiled
templates are in this form: at the top level, around contents and in them, on every level. -/
theorem buffers_are_canonical :
    (∀ pushes : List Buffer.Push, Canonical (Buffer.after pushes).toList ∧
      (Buffer.after pushes).toList = joined (pushes.map Buffer.Push.pushed) ∧
      ((Buffer.after pushes).isEmpty ↔ ∀ p ∈ pushes, p.pushed = .literal "") ∧
      ((Buffer.after pushes).onlyInvocations ↔
        ∀ p ∈ pushes, p.pushed = .literal "" ∨ ∃ name, p.pushed = .invokeElement name)) ∧
    (∀ pushes others : List Buffer.Push,
      (Buffer.after pushes = Buffer.after others ↔
        joined (pushes.map Buffer.Push.pushed) = joined (others.map Buffer.Push.pushed)) ∧
      (Buffer.after pushes = Buffer.after others ↔
        letters (pushes.map Buffer.Push.pushed) = letters (others.map Buffer.Push.pushed)) ∧
      (Buffer.after pushes).pushAll (Buffer.after others).toList = Buffer.after (pushes ++ others)) ∧
    ∀ {ds : List Document} {t : Template}, Compiled ds (some t) → ∀ l ∈ t.chain,
      Canonical l.root ∧ ∀ p ∈ l.elements, Canonical p.2.render ∧ Canonical p.2.content := by
  refine ⟨fun pushes => ?_, fun pushes others => ?_, fun {ds t} h l hl => ?_⟩
  · rw [Buffer.after_eq_ofList]
    refine ⟨Buffer.canonical_ofList _, Buffer.toList_ofList _, ?_, ?_⟩
    · rw [Buffer.isEmpty_ofList, List.forall_mem_map]
    · rw [Buffer.onlyInvocations_ofList, List.forall_mem_map]
  · rw [Buffer.after_eq_ofList, Buffer.after_eq_ofList, Buffer.after_eq_ofList, List.map_append]
    exact ⟨Buffer.ofList_eq_iff_joined, Buffer.ofList_eq_iff_letters, Buffer.pushAll_toList_ofList _ _⟩
  · obtain ⟨rs, -, hrealised⟩ := compiled_reads h
    exact hrealised.canonical hl

/-- a text, an element without name, and a named one with two texts in it -/
def pieced : Document where
  block := ⟨some "a", [.text "x", .element ⟨false, none, none, none, some [.text "y"]⟩,
    .element ⟨false, some "p", some [some "m"], none, some [.text "b", .text "c"]⟩]⟩

/-- all that stands before the named element is one literal, and so is what is in it; and a buffer does not show how
text was cut -/
theorem pieced_is_canonical : (∃ t, Compiled [pieced] (some t) ∧
      t.leaf.root = [.literal "x<div>y</div>", .invokeElement "m"] ∧ Canonical t.leaf.root ∧
      t.leaf.elements = [("m", ⟨[.literal "<p class=\"", .elementClasses ["m"], .literal "\">", .invokeContent "m",
        .literal "</p>"], [.literal "bc"]⟩)] ∧
      ∀ p ∈ t.leaf.elements, Canonical p.2.render ∧ Canonical p.2.content) ∧
    Buffer.after [.text "<a", .text "", .op (.literal ">"), .op (.invokeElement "m"), .text "</a>"] =
      Buffer.after [.text "<a>", .op (.invokeElement "m"), .text "</", .op (.literal "a>")] := by
  obtain ⟨-, hsame, hcompiled⟩ := buffers_are_canonical
  constructor
  · obtain ⟨t, ht, hroot, helements⟩ : ∃ t, (compile pieced.block none pieced.options).result = .ok t ∧
        t.leaf.root = [.literal "x<div>y</div>", .invokeElement "m"] ∧
        t.leaf.elements = [("m", ⟨[.literal "<p class=\"", .elementClasses ["m"], .literal "\">", .invokeContent "m",
          .literal "</p>"], [.literal "bc"]⟩)] :=
      ⟨_, rfl, rfl, rfl⟩
    have h : Compiled [pieced] (some t) := .document _ .none ht
    obtain ⟨hroot', helements'⟩ := hcompiled h t.leaf List.mem_cons_self
    exact ⟨t, h, hroot, hroot', helements, helements'⟩
  · exact (hsame _ _).2.1.2 (by decide)

end BlockTemplates
