/-
What it means for a cursor to follow a reader. At a place the cursor has a text left; a reading follows a reader there
if it gives the reader's result and leaves the reader's rest, or fails with the reader's fault at the offset of that
fault. On the way the cursor never goes back and is always at a boundary.

Main statements: `Follows.bind_ok` and `Follows.bind_error` (readings one after the other), and one lemma for each step
that a cursor can do.
-/
import BlockTemplates.Proofs.Cursor.Machine

namespace BlockTemplates.Cursor

open Text Source

/-- `s` is left of the text at the place, which was reached without going back -/
structure At (text : List Char) (p : Place) (s : List Char) : Prop where
  here : ∃ before, text = before ++ s ∧ p.pos = byteSize before
  inside : ∀ n ∈ p.trail, IsBoundary text n
  forward : (p.pos :: p.trail).Pairwise (· ≥ ·)

/-- from where `s` is left of the text, the reading comes to the outcome of a reader -/
def Follows {α : Type} (text : List Char) (m : Reading α) (s : List Char) (x : Except Fault (α × List Char)) :
    Prop :=
  ∀ p, At text p s →
    match x with
    | .ok (a, t) => ∃ q, m text p = (.ok a, q) ∧ At text q t
    | .error f => ∃ q t before, m text p = (.error (.fault f.kind (byteSize before)), q) ∧ At text q t ∧
      text = before ++ f.rest

theorem At.start (text : List Char) : At text ⟨0, []⟩ text where
  here := ⟨[], rfl, rfl⟩
  inside := by simp
  forward := List.pairwise_singleton ..

/-- moving on by a front part of what is left -/
theorem At.skip {text w s : List Char} {p : Place} (h : At text p (w ++ s)) :
    At text ⟨p.pos + byteSize w, p.pos :: p.trail⟩ s where
  here := by
    obtain ⟨before, htext, hpos⟩ := h.here
    exact ⟨before ++ w, by rw [htext, List.append_assoc], by simp only [hpos, byteSize_append]⟩
  inside := by
    obtain ⟨before, htext, hpos⟩ := h.here
    exact List.forall_mem_cons.2 ⟨⟨before, w ++ s, htext, hpos.symm⟩, h.inside⟩
  forward := by
    refine List.pairwise_cons.2 ⟨fun n hn => ?_, h.forward⟩
    rcases List.mem_cons.1 hn with rfl | hn
    · exact Nat.le_add_right ..
    · exact Nat.le_trans ((List.pairwise_cons.1 h.forward).1 n hn) (Nat.le_add_right ..)

namespace Follows

variable {α β : Type} {n : Nat} {text s t u w before : List Char} {m : Reading α} {k : α → Reading β} {a : α}
  {f : Fault} {x : Except Fault (β × List Char)}

theorem of_eq {x y : Except Fault (α × List Char)} (hm : Follows text m s x) (h : x = y) : Follows text m s y := h ▸ hm

/-! ## One after the other -/

theorem pure (a : α) : Follows text (pure a) s (.ok (a, s)) := fun p hp => ⟨p, rfl, hp⟩

theorem bind_ok (hm : Follows text m s (.ok (a, t))) (hk : Follows text (k a) t x) :
    Follows text (m >>= k) s x := by
  intro p hp
  obtain ⟨q, hq, hat⟩ := hm p hp
  rw [run_bind, hq]
  exact hk q hat

theorem bind_error (hm : Follows text m s (.error f)) : Follows text (m >>= k) s (.error f) := by
  intro p hp
  obtain ⟨q, t, before, hq, hat, hbefore⟩ := hm p hp
  refine ⟨q, t, before, ?_, hat, hbefore⟩
  rw [run_bind, hq]

/-- readings one after the other follow readers one after the other -/
theorem bind {x : Except Fault (α × List Char)} {g : α × List Char → Except Fault (β × List Char)}
    (hm : Follows text m s x) (hk : ∀ a t, x = .ok (a, t) → Follows text (k a) t (g (a, t))) :
    Follows text (m >>= k) s (x.bind g) := by
  cases x with
  | error f => exact hm.bind_error
  | ok p => exact hm.bind_ok (hk p.1 p.2 rfl)

/-- a reading whose result is only changed -/
theorem map_ok {g : α → β} (hm : Follows text m s (.ok (a, t))) :
    Follows text (do return g (← m)) s (.ok (g a, t)) := hm.bind_ok (pure _)

theorem map {x : Except Fault (α × List Char)} {g : α → β} (hm : Follows text m s x) :
    Follows text (do return g (← m)) s (x.map fun p => (g p.1, p.2)) := by
  cases x with
  | error f => exact hm.bind_error
  | ok p => exact hm.map_ok

/-- some text stands before what is left -/
theorem of_before {x : Except Fault (α × List Char)} (h : ∀ before, text = before ++ s → Follows text m s x) :
    Follows text m s x := by
  intro p hp
  obtain ⟨before, htext, -⟩ := hp.here
  exact h before htext p hp

theorem source_bind {k : List Char → Reading β} (hk : Follows text (k text) s x) :
    Follows text (source >>= k) s x := hk

theorem position_bind {k : Nat → Reading β}
    (hk : ∀ before, text = before ++ s → Follows text (k (byteSize before)) s x) :
    Follows text (position >>= k) s x := by
  intro p hp
  obtain ⟨before, htext, hpos⟩ := hp.here
  have := hk before htext p hp
  rwa [← hpos] at this

theorem rounds_bind {k : Nat → Reading β} (hk : ∀ n, s.length < n → Follows text (k n) s x) :
    Follows text (rounds >>= k) s x := by
  intro p hp
  obtain ⟨before, htext, -⟩ := hp.here
  have hlength : s.length < text.length + 1 := by
    rw [htext, List.length_append]
    omega
  exact hk _ hlength p hp

/-! ## Cuts and errors -/

theorem cut (hu : u = w ++ t) (hn : n = byteSize w) : Follows text (cut n u) s (.ok ((w, t), s)) := by
  unfold Cursor.cut
  rw [hu, hn, cut?_byteSize_append]
  exact pure _

theorem stop_fault {kind : ParseErrorKind} (h : text = before ++ u) :
    Follows text (stop (.fault kind (byteSize before)) : Reading α) s (.error ⟨kind, u⟩) :=
  fun p hp => ⟨p, s, before, rfl, hp, h⟩

theorem failAt {kind : ParseErrorKind} (h : text = before ++ u) :
    Follows text (failAt kind (byteSize before) : Reading α) s (.error ⟨kind, u⟩) :=
  source_bind ((cut h rfl).bind_ok (stop_fault h))

theorem fail {kind : ParseErrorKind} : Follows text (fail kind : Reading α) s (.error ⟨kind, s⟩) :=
  position_bind fun _ h => failAt h

/-! ## Steps -/

theorem skip (hs : s = w ++ t) (hn : n = byteSize w) : Follows text (skip n) s (.ok ((), t)) := by
  subst hs hn
  exact fun _ hp => ⟨_, rfl, hp.skip⟩

theorem skip_char {c : Char} : Follows text (Cursor.skip c.utf8Size) (c :: s) (.ok ((), s)) :=
  skip (List.singleton_append).symm rfl

theorem rest : Follows text rest s (.ok (s, s)) := position_bind fun _ h => source_bind (cut h rfl).map_ok

theorem following (hs : s = w ++ t) (hn : n = byteSize w) : Follows text (following n) s (.ok (w, s)) := by
  refine position_bind fun before h => ?_
  have htext : text = (before ++ w) ++ t := by rw [h, hs, List.append_assoc]
  have hsize : byteSize before + n = byteSize (before ++ w) := by rw [byteSize_append, hn]
  exact source_bind ((cut htext hsize).bind_ok (cut rfl rfl).map_ok)

theorem oneBack_bind {k : Nat → Reading β} {c : Char} (h : text = before ++ c :: s) (hc : c.utf8Size = 1)
    (hk : Follows text (k (byteSize before)) s x) : Follows text (oneBack >>= k) s x := by
  refine bind_ok (position_bind fun before' h' => ?_) hk
  have hbefore : before' = before ++ [c] := by
    rw [h] at h'
    exact (List.append_cancel_right (h'.symm.trans (List.append_cons before c s)))
  have hsize : byteSize before' = byteSize before + 1 := by simp [hbefore, hc]
  rw [hsize, if_neg (Nat.succ_ne_zero _)]
  exact pure _

theorem peek : Follows text peek s (.ok (s.head?, s)) := rest.map_ok

theorem advance_nil : Follows text advance [] (.ok (none, [])) := peek.bind_ok (pure _)

theorem advance_cons {c : Char} : Follows text advance (c :: s) (.ok (some c, s)) :=
  peek.bind_ok (skip_char.bind_ok (pure _))

theorem expect_cons {c : Char} : Follows text (expect c) (c :: s) (.ok ((), s)) := by
  refine peek.bind_ok ?_
  show Follows text (if c = c then Cursor.skip c.utf8Size else _) (c :: s) _
  rw [if_pos rfl]
  exact skip_char

theorem atComment : Follows text atComment s (.ok (Source.atComment s, s)) := rest.map_ok

end Follows

end BlockTemplates.Cursor
