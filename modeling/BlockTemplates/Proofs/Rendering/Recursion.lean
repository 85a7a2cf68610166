/-
Whether rendering ends. An element contains itself if its tags lead to an invocation of it: through elements and contents,
which are looked up from the leaf, and through super contents, which are looked up above their own level. Invocations that
avoid such elements can only be nested so deep: each one enters an element that is not entered yet, goes on from the tags
of an element to its content, or goes on to a level further up.

Main statements: `Template.follow_ne_depth` (the check never uses up its depth), `recursiveElement?_spec` (what the check
finds), `run_of_acyclic` (without elements that contain themselves, rendering ends within the bound),
`ContainsItself.not_run` (with one, it does not end) and `recursion_check_exact`.
-/
import BlockTemplates.Proofs.Reading.Failures
import BlockTemplates.Proofs.Rendering.Resolution

namespace BlockTemplates

open Render

/-! ## What leads to what -/

/-- from the operations, invocations lead to an invocation of the element -/
inductive LeadsTo (leaf : List Level) (name : String) : Place → Prop
  | here {place} : .invokeElement name ∈ place.2 → LeadsTo leaf name place
  | step {place next op} : op ∈ place.2 → target? leaf place.1 op = some next → LeadsTo leaf name next →
    LeadsTo leaf name place

/-- the tags of the element lead to an invocation of it again -/
def ContainsItself (leaf : List Level) (name : String) : Prop :=
  ∃ owner body, findBody name leaf = some (owner, body) ∧ LeadsTo leaf name (owner, body.render)

/-- what a single operation leads to -/
def LeadsBy (leaf owner : List Level) (op : Op) (name : String) : Prop :=
  op = .invokeElement name ∨ ∃ next, target? leaf owner op = some next ∧ LeadsTo leaf name next

theorem leadsTo_iff {leaf : List Level} {name : String} {place : Place} :
    LeadsTo leaf name place ↔ ∃ op ∈ place.2, LeadsBy leaf place.1 op name := by
  constructor
  · rintro (hm | ⟨hop, ht, h⟩)
    · exact ⟨_, hm, .inl rfl⟩
    · exact ⟨_, hop, .inr ⟨_, ht, h⟩⟩
  · rintro ⟨op, hop, rfl | ⟨next, ht, h⟩⟩
    · exact .here hop
    · exact .step hop ht h

theorem leadsTo_cons_iff {leaf owner : List Level} {name : String} {op : Op} {ops : List Op} :
    LeadsTo leaf name (owner, op :: ops) ↔ LeadsBy leaf owner op name ∨ LeadsTo leaf name (owner, ops) := by
  simp only [leadsTo_iff, List.mem_cons, exists_eq_or_imp]

theorem Render.Op.eq_invokeElement {op : Op} {name : String} (h : op.tagsOf = some name) : op = .invokeElement name := by
  cases op with
  | invokeElement n => exact congrArg _ (Option.some.inj h)
  | _ => simp [tagsOf] at h

theorem target?_invokeElement {leaf owner : List Level} {name : String} {next : Place} :
    target? leaf owner (.invokeElement name) = some next ↔
      ∃ level body, findBody name leaf = some (level, body) ∧ next = (level, body.render) := by
  simp [target?, @eq_comm _ _ next]

theorem not_leadsTo_nil {leaf owner : List Level} {name : String} : ¬ LeadsTo leaf name (owner, []) := by
  simp [leadsTo_iff]

/-! ## How deep invocations can be nested -/

/-- the names that are defined on a chain, once for each definition -/
def elementNames (leaf : List Level) : List String := (leaf.flatMap (·.elements)).map Prod.fst

theorem mem_elementNames {leaf : List Level} {name : String} (h : (findBody name leaf).isSome) :
    name ∈ elementNames leaf := by
  obtain ⟨l, hl, hd⟩ := findBody_isSome_iff.1 h
  unfold Level.defines at hd
  obtain ⟨p, hp, hn⟩ := List.lookup_isSome_iff.1 hd
  rw [beq_iff_eq] at hn
  exact List.mem_map.2 ⟨p, List.mem_flatMap.2 ⟨l, hl, hp⟩, hn.symm⟩

/-- how many definitions are not of an active element -/
def room (leaf : List Level) (active : List String) : Nat := ((elementNames leaf).filter (· ∉ active)).length

theorem room_cons_lt {leaf : List Level} {active : List String} {name : String} (h : name ∈ elementNames leaf)
    (ha : name ∉ active) : room leaf (name :: active) < room leaf active := by
  have hfilter : (elementNames leaf).filter (· ∉ name :: active) =
      ((elementNames leaf).filter (· ∉ active)).filter (· ≠ name) := by
    simp [List.filter_filter]
  unfold room
  rw [hfilter, List.length_filter_lt_length_iff_exists]
  exact ⟨name, List.mem_filter.2 ⟨h, by simpa using ha⟩, by simp⟩

/-- a bound on how deep the invocations of a place can be nested, where the active elements are not entered again: each
element takes its tags, its content and one super content for each level -/
def rank (leaf : List Level) (own : Option String) (active : List String) (owner : List Level) : Nat :=
  room leaf active * (leaf.length + 2) + (if own.isSome then leaf.length + 1 else owner.length)

/-- what is active where an operation leads -/
def Render.Op.activeIn (op : Op) (active : List String) : List String := op.tagsOf.toList ++ active

theorem Fits.rank_lt {leaf : List Level} {own : Option String} {place next : Place} {op : Op} {active : List String}
    (h : Fits leaf own place) (hop : op ∈ place.2) (ht : target? leaf place.1 op = some next)
    (ha : ∀ name, op.tagsOf = some name → name ∉ active) :
    rank leaf op.tagsOf (op.activeIn active) next.1 < rank leaf own active place.1 := by
  have hr := h.ops op hop
  cases op with
  | literal text => simp [target?] at ht
  | elementClasses names => simp [target?] at ht
  | invokeElement name =>
    obtain ⟨rfl, hsome⟩ := hr
    have hlt := room_cons_lt (mem_elementNames (findBody_isSome_of_suffix h.suffix hsome)) (ha name rfl)
    have hmul := Nat.mul_le_mul_right (leaf.length + 2) (Nat.succ_le_of_lt hlt)
    simp only [rank, Op.activeIn, Op.tagsOf, Option.toList_some, List.singleton_append, Option.isSome_some, if_true,
      Option.isSome_none, Bool.false_eq_true, if_false] at hmul ⊢
    rw [Nat.succ_mul] at hmul
    omega
  | invokeContent name =>
    obtain ⟨rfl, -⟩ := hr
    simp only [target?, Option.map_eq_some_iff] at ht
    obtain ⟨⟨owner, body⟩, hf, rfl⟩ := ht
    have hle := (findBody_suffix hf).1.length_le
    simp only [rank, Op.activeIn, Op.tagsOf, Option.toList_none, List.nil_append, Option.isSome_some, if_true,
      Option.isSome_none, Bool.false_eq_true, if_false]
    omega
  | superContent name =>
    obtain ⟨rfl, hsome⟩ := hr
    simp only [target?, Option.map_eq_some_iff] at ht
    obtain ⟨⟨owner, body⟩, hf, rfl⟩ := ht
    have hle := (findBody_suffix hf).1.length_le
    have hpos : place.1.length ≠ 0 := by
      intro h0
      simp [List.eq_nil_of_length_eq_zero h0, findBody] at hsome
    simp only [List.length_tail] at hle
    simp only [rank, Op.activeIn, Op.tagsOf, Option.toList_none, List.nil_append, Option.isSome_none,
      Bool.false_eq_true, if_false]
    omega

theorem Template.rank_start_le (t : Template) : rank t.chain none [] t.start.1 ≤ t.depthBound := by
  have hroom : room t.chain [] ≤ (t.chain.flatMap (·.elements)).length :=
    Nat.le_trans (List.length_filter_le _ _) (Nat.le_of_eq (List.length_map _))
  have hmul := Nat.mul_le_mul_right (t.chain.length + 2) hroom
  simp only [rank, Template.start, Template.rootOwner, Template.depthBound, Option.isSome_none, Bool.false_eq_true,
    if_false, List.length_singleton, Nat.succ_mul]
  omega

/-! ## The check -/

/-- elements that do not contain themselves, with all that they lead to -/
def Settled (leaf : List Level) (done : List String) : Prop :=
  ∀ name ∈ done, ∀ owner body, findBody name leaf = some (owner, body) →
    ∀ n, LeadsTo leaf n (owner, body.render) → n ∈ done ∧ n ≠ name

/-- what is known when operations that lead to `reached` have been followed -/
def Followed (leaf : List Level) (active : List String) (reached : String → Prop) (done : List String) :
    Except Obstacle (List String) → Prop
  | .ok done' => (∀ n ∈ done, n ∈ done') ∧ (∀ n ∈ active, n ∉ done') ∧ Settled leaf done' ∧ ∀ n, reached n → n ∈ done'
  | .error (.recursive n) => reached n ∧ (n ∈ active ∨ ContainsItself leaf n)
  | .error .depth => False

theorem Followed.bind {leaf : List Level} {active done : List String} {reached first rest : String → Prop}
    {x : Except Obstacle (List String)} {f : List String → Except Obstacle (List String)}
    (hr : ∀ n, reached n ↔ first n ∨ rest n) (hx : Followed leaf active first done x)
    (hf : ∀ done', (∀ n ∈ active, n ∉ done') → Settled leaf done' → Followed leaf active rest done' (f done')) :
    Followed leaf active reached done (x >>= f) := by
  cases x with
  | error o =>
    cases o with
    | recursive n => exact ⟨(hr n).2 (.inl hx.1), hx.2⟩
    | depth => exact hx
  | ok done₁ =>
    obtain ⟨hsub, hdisjoint, hsettled, hfirst⟩ := hx
    have hf := hf done₁ hdisjoint hsettled
    change Followed leaf active reached done (f done₁)
    cases hy : f done₁ with
    | error o =>
      rw [hy] at hf
      cases o with
      | recursive n => exact ⟨(hr n).2 (.inr hf.1), hf.2⟩
      | depth => exact hf
    | ok done₂ =>
      rw [hy] at hf
      obtain ⟨hsub', hdisjoint', hsettled', hrest⟩ := hf
      refine ⟨?_, hdisjoint', hsettled', ?_⟩
      · intro n hn
        exact hsub' n (hsub n hn)
      · intro n hn
        rcases (hr n).1 hn with hn | hn
        · exact hsub' n (hfirst n hn)
        · exact hrest n hn

/-- following one operation; `followed` follows what it invokes -/
def visit (leaf : List Level)
    (followed : List Level → List String → List Op → List String → Except Obstacle (List String)) (owner : List Level)
    (active done : List String) (op : Op) : Except Obstacle (List String) :=
  match op with
  | .invokeElement name =>
    if name ∈ done then .ok done
    else if name ∈ active then .error (.recursive name)
    else
      match target? leaf owner op with
      | some (level, ops) => (followed level (name :: active) ops done).map (name :: ·)
      | none => .ok (name :: done)
  | op =>
    match target? leaf owner op with
    | some (level, ops) => followed level active ops done
    | none => .ok done

theorem follow_succ (leaf : List Level) (depth : Nat) (owner : List Level) (active : List String) (ops : List Op)
    (done : List String) :
    follow leaf (depth + 1) owner active ops done = ops.foldlM (visit leaf (follow leaf depth) owner active) done := rfl

/-- following the tags of an element to their end settles the element -/
theorem Followed.element {leaf owner : List Level} {active done : List String} {name : String} {body : Body}
    {x : Except Obstacle (List String)} (hf : findBody name leaf = some (owner, body)) (ha : name ∉ active)
    (h : Followed leaf (name :: active) (LeadsTo leaf · (owner, body.render)) done x) :
    Followed leaf active (fun n => n = name ∨ LeadsTo leaf n (owner, body.render)) done (x.map (name :: ·)) := by
  cases x with
  | error o =>
    cases o with
    | depth => exact h
    | recursive n =>
      obtain ⟨hn, hactive | hself⟩ := h
      · rcases List.mem_cons.1 hactive with rfl | hactive
        · exact ⟨.inl rfl, .inr ⟨owner, body, hf, hn⟩⟩
        · exact ⟨.inr hn, .inl hactive⟩
      · exact ⟨.inr hn, .inr hself⟩
  | ok done' =>
    obtain ⟨hsub, hdisjoint, hsettled, hreached⟩ := h
    have hname : name ∉ done' := hdisjoint name List.mem_cons_self
    refine ⟨fun n hn => List.mem_cons_of_mem _ (hsub n hn), ?_, ?_, ?_⟩
    · intro n hn hmem
      rcases List.mem_cons.1 hmem with rfl | hmem
      · exact ha hn
      · exact hdisjoint n (List.mem_cons_of_mem _ hn) hmem
    · intro m hm level b hb n hn
      rcases List.mem_cons.1 hm with rfl | hm
      · cases hf.symm.trans hb
        have hmem := hreached n hn
        exact ⟨List.mem_cons_of_mem _ hmem, fun heq => hname (heq ▸ hmem)⟩
      · obtain ⟨hmem, hne⟩ := hsettled m hm level b hb n hn
        exact ⟨List.mem_cons_of_mem _ hmem, hne⟩
    · rintro n (rfl | hn)
      · exact List.mem_cons_self
      · exact List.mem_cons_of_mem _ (hreached n hn)

/-- an element that is settled need not be followed again, wherever it was followed first -/
theorem Followed.settled {leaf owner : List Level} {active done : List String} {name : String} {body : Body}
    (hf : findBody name leaf = some (owner, body)) (hmem : name ∈ done) (hdisjoint : ∀ n ∈ active, n ∉ done)
    (hsettled : Settled leaf done) :
    Followed leaf active (fun n => n = name ∨ LeadsTo leaf n (owner, body.render)) done (.ok done) := by
  refine ⟨fun n hn => hn, hdisjoint, hsettled, ?_⟩
  rintro n (rfl | hn)
  · exact hmem
  · exact (hsettled name hmem owner body hf n hn).1

theorem visit_spec {leaf owner : List Level} {active done : List String} {op : Op} {next : Place}
    {followed : List Level → List String → List Op → List String → Except Obstacle (List String)}
    (ht : target? leaf owner op = some next) (hdisjoint : ∀ n ∈ active, n ∉ done) (hsettled : Settled leaf done)
    (hnext : (∀ name, op.tagsOf = some name → name ∉ active ∧ name ∉ done) →
      Followed leaf (op.activeIn active) (LeadsTo leaf · next) done
        (followed next.1 (op.activeIn active) next.2 done)) :
    Followed leaf active (LeadsBy leaf owner op) done (visit leaf followed owner active done op) := by
  have hleads : LeadsBy leaf owner op = fun n => op.tagsOf = some n ∨ LeadsTo leaf n next := by
    funext n
    cases op <;> simp [LeadsBy, ht, Op.tagsOf]
  rw [hleads]
  cases op with
  | literal text => simp [target?] at ht
  | elementClasses names => simp [target?] at ht
  | invokeElement name =>
    simp only [visit, ht]
    obtain ⟨level, body, hf, rfl⟩ := target?_invokeElement.1 ht
    simp only [Op.tagsOf, Option.some.injEq, @eq_comm _ name] at hnext ⊢
    split
    · rename_i hmem
      exact Followed.settled hf hmem hdisjoint hsettled
    · rename_i hmem
      split
      · rename_i hactive
        exact ⟨.inl rfl, .inl hactive⟩
      · rename_i hactive
        refine Followed.element hf hactive (hnext ?_)
        rintro n rfl
        exact ⟨hactive, hmem⟩
  | invokeContent name =>
    simp only [visit, ht]
    simpa [Op.tagsOf, Op.activeIn] using hnext
  | superContent name =>
    simp only [visit, ht]
    simpa [Op.tagsOf, Op.activeIn] using hnext

/-- following operations to their end settles what they lead to, and otherwise finds an element that is active or
contains itself -/
theorem follow_spec {leaf : List Level} (hw : WellBound leaf) {depth : Nat} {own : Option String} {owner : List Level}
    {active done : List String} {ops : List Op} (hfits : Fits leaf own (owner, ops))
    (hrank : rank leaf own active owner < depth) (hdisjoint : ∀ n ∈ active, n ∉ done) (hsettled : Settled leaf done) :
    Followed leaf active (LeadsTo leaf · (owner, ops)) done (follow leaf depth owner active ops done) := by
  induction depth generalizing own owner active done ops with
  | zero => exact absurd hrank (Nat.not_lt_zero _)
  | succ depth ihd =>
    rw [follow_succ]
    induction ops generalizing done with
    | nil => exact ⟨fun n hn => hn, hdisjoint, hsettled, fun n hn => absurd hn not_leadsTo_nil⟩
    | cons op ops ih =>
      rw [List.foldlM_cons]
      refine Followed.bind (fun n => leadsTo_cons_iff) ?_ fun done' hd hs => ih hfits.tail hd hs
      rcases hfits.cases List.mem_cons_self with ⟨text, rfl⟩ | ⟨names, rfl⟩ | ⟨next, ht⟩
      · exact ⟨fun n hn => hn, hdisjoint, hsettled, fun n hn => by simp [LeadsBy, target?] at hn⟩
      · exact ⟨fun n hn => hn, hdisjoint, hsettled, fun n hn => by simp [LeadsBy, target?] at hn⟩
      · refine visit_spec ht hdisjoint hsettled fun hnew => ?_
        have hlt := hfits.rank_lt List.mem_cons_self ht fun name hname => (hnew name hname).1
        refine ihd (hfits.target hw ht) (Nat.lt_of_lt_of_le hlt (Nat.le_of_lt_succ hrank)) ?_ hsettled
        intro n hn
        rcases List.mem_append.1 hn with hn | hn
        · exact (hnew n (Option.mem_toList.1 hn)).2
        · exact hdisjoint n hn

section

variable {t : Template} (hw : WellBound t.chain) (hfits : Fits t.chain none t.start)
include hw hfits

/-- what the check follows is all that rendering invokes -/
theorem Template.followed_start :
    Followed t.chain [] (LeadsTo t.chain · t.start) []
      (follow t.chain (t.depthBound + 1) t.rootOwner [] t.rootOps []) := by
  have hsettled : Settled t.chain [] := by simp [Settled]
  exact follow_spec hw hfits (Nat.lt_succ_of_le t.rank_start_le) (by simp) hsettled

/-- the check never uses up its depth, so that it finds nothing only if there is nothing to find -/
theorem Template.follow_ne_depth :
    follow t.chain (t.depthBound + 1) t.rootOwner [] t.rootOps [] ≠ .error .depth := by
  intro hdepth
  have hspec := Template.followed_start hw hfits
  rw [hdepth] at hspec
  exact hspec

/-- the check finds an element that contains itself and that rendering reaches, unless there is none -/
theorem Template.recursiveElement?_spec :
    match t.recursiveElement? with
    | some name => LeadsTo t.chain name t.start ∧ ContainsItself t.chain name
    | none => ∀ name, LeadsTo t.chain name t.start → ¬ ContainsItself t.chain name := by
  have hspec := Template.followed_start hw hfits
  unfold recursiveElement?
  cases hf : follow t.chain (t.depthBound + 1) t.rootOwner [] t.rootOps [] with
  | error o =>
    cases o with
    | depth => exact absurd hf (Template.follow_ne_depth hw hfits)
    | recursive name =>
      rw [hf] at hspec
      obtain ⟨hleads, hactive | hself⟩ := hspec
      · simp at hactive
      · exact ⟨hleads, hself⟩
  | ok done =>
    rw [hf] at hspec
    obtain ⟨-, -, hsettled, hreached⟩ := hspec
    rintro name hleads ⟨owner, body, hb, hself⟩
    exact (hsettled name (hreached name hleads) owner body hb name hself).2 rfl

end

/-! ## Rendering -/

/-- all that the place leads to, the tags of each active element lead to -/
def Below (leaf : List Level) (active : List String) (place : Place) : Prop :=
  ∀ name ∈ active, ∀ owner body, findBody name leaf = some (owner, body) →
    ∀ n, LeadsTo leaf n place → LeadsTo leaf n (owner, body.render)

/-- operations that lead to no element that contains itself are carried out within the bound -/
theorem run_of_acyclic {leaf : List Level} (hw : WellBound leaf) {depth : Nat} {own : Option String} {place : Place}
    {active : List String} (hfits : Fits leaf own place) (hrank : rank leaf own active place.1 ≤ depth)
    (hacyclic : ∀ name, LeadsTo leaf name place → ¬ ContainsItself leaf name) (hbelow : Below leaf active place) :
    ∃ text, run leaf depth place.1 place.2 = .ok text := by
  induction depth using Nat.strongRecOn generalizing own place active with
  | ind depth ihd =>
    rw [exists_run_eq_ok]
    intro op hop
    rcases hfits.cases hop with ⟨text, rfl⟩ | ⟨names, rfl⟩ | ⟨next, ht⟩
    · exact ⟨_, rfl⟩
    · exact ⟨_, rfl⟩
    · -- an active element that is entered again would contain itself
      have hnew : ∀ name, op.tagsOf = some name → name ∉ active := by
        intro name hname hactive
        obtain rfl := Op.eq_invokeElement hname
        obtain ⟨level, body, hf, -⟩ := target?_invokeElement.1 ht
        have hleads : LeadsTo leaf name place := .here hop
        exact hacyclic name hleads ⟨level, body, hf, hbelow name hactive level body hf name hleads⟩
      have hnext : Below leaf (op.activeIn active) next := by
        intro name hname level body hf n hn
        rcases List.mem_append.1 hname with hname | hname
        · obtain rfl := Op.eq_invokeElement (Option.mem_toList.1 hname)
          obtain ⟨level', body', hf', rfl⟩ := target?_invokeElement.1 ht
          cases hf.symm.trans hf'
          exact hn
        · exact hbelow name hname level body hf n (.step hop ht hn)
      have hlt := hfits.rank_lt hop ht hnew
      rw [write_eq_invoked ht]
      cases depth with
      | zero => omega
      | succ depth =>
        have hle := Nat.le_of_lt_succ (Nat.lt_of_lt_of_le hlt hrank)
        exact ihd depth (Nat.lt_succ_self depth) (hfits.target hw ht) hle
          (fun name hn => hacyclic name (.step hop ht hn)) hnext

theorem exists_run_of_write {leaf owner : List Level} {depth : Nat} {op : Op} {next : Place} {s : String}
    (ht : target? leaf owner op = some next) (h : write leaf owner (invoked leaf depth) op = .ok s) :
    ∃ k, depth = k + 1 ∧ run leaf k next.1 next.2 = .ok s := by
  rw [write_eq_invoked ht] at h
  cases depth with
  | zero => simp [invoked] at h
  | succ depth => exact ⟨depth, rfl, h⟩

/-- where operations are carried out, so are the tags of every element that they lead to, less deep -/
theorem LeadsTo.run {leaf : List Level} {name : String} {place : Place} (h : LeadsTo leaf name place) {depth : Nat}
    {text : String} (hr : run leaf depth place.1 place.2 = .ok text) :
    ∃ k < depth, ∃ owner body s, findBody name leaf = some (owner, body) ∧ run leaf k owner body.render = .ok s := by
  induction h generalizing depth text with
  | @here place hop =>
    obtain ⟨s, hs⟩ := exists_run_eq_ok.1 ⟨text, hr⟩ _ hop
    cases ht : target? leaf place.1 (.invokeElement name) with
    | none => simp [write, ht] at hs
    | some next =>
      obtain ⟨k, rfl, hk⟩ := exists_run_of_write ht hs
      obtain ⟨owner, body, hf, rfl⟩ := target?_invokeElement.1 ht
      exact ⟨k, Nat.lt_succ_self k, owner, body, s, hf, hk⟩
  | @step place next op hop ht _ ih =>
    obtain ⟨s, hs⟩ := exists_run_eq_ok.1 ⟨text, hr⟩ _ hop
    obtain ⟨k, rfl, hk⟩ := exists_run_of_write ht hs
    obtain ⟨j, hj, h⟩ := ih hk
    exact ⟨j, Nat.lt_succ_of_lt hj, h⟩

/-- the tags of an element that contains itself are never carried out -/
theorem ContainsItself.not_run {leaf owner : List Level} {name : String} {body : Body} (h : ContainsItself leaf name)
    (hf : findBody name leaf = some (owner, body)) (depth : Nat) (text : String) :
    run leaf depth owner body.render ≠ .ok text := by
  intro hr
  induction depth using Nat.strongRecOn generalizing text with
  | ind depth ih =>
    obtain ⟨level, b, hb, hleads⟩ := h
    cases hf.symm.trans hb
    obtain ⟨k, hk, level, b, s, hb, hs⟩ := hleads.run hr
    cases hf.symm.trans hb
    exact ih k hk s hs

/-! ## The check is exact -/

section

variable {t : Template} (hw : WellBound t.chain) (hfits : Fits t.chain none t.start)
include hw hfits

/-- rendering stops exactly with what its operations write -/
theorem Template.stopsAt_iff {last : Machine} :
    t.machine.StopsAt t.chain last ↔ ∃ text, last = ⟨[], text⟩ ∧ Writes t.chain t.start.1 t.start.2 text := by
  constructor
  · rintro ⟨n, hafter, hstep⟩
    have hnil := Machine.frames_eq_nil (Machine.fits_after hw hfits.machine hafter) hstep
    obtain ⟨frames, out⟩ := last
    dsimp only at hnil
    subst hnil
    exact ⟨out, rfl, writes_iff_after.2 ⟨n, hafter⟩⟩
  · rintro ⟨text, rfl, h⟩
    obtain ⟨n, hn⟩ := writes_iff_after.1 h
    exact ⟨n, hn, rfl⟩

/-- a template that passes the check is rendered, whatever the bound, and the bound is not in the way -/
theorem Template.render_of_check (h : t.recursiveElement? = none) : ∃ text, t.render = .ok text := by
  have hspec := recursiveElement?_spec hw hfits
  rw [h] at hspec
  exact run_of_acyclic hw hfits t.rank_start_le hspec (by simp [Below])

theorem Template.not_stopsAt {name : String} (h : t.recursiveElement? = some name) (last : Machine) :
    ¬ t.machine.StopsAt t.chain last := by
  have hspec := recursiveElement?_spec hw hfits
  rw [h] at hspec
  obtain ⟨hleads, hself⟩ := hspec
  rw [stopsAt_iff hw hfits]
  rintro ⟨text, -, hwrites⟩
  obtain ⟨depth, hrun⟩ := run_of_writes hwrites
  obtain ⟨k, -, owner, body, s, hf, hs⟩ := hleads.run hrun
  exact hself.not_run hf k s hs

/-- a template whose operations write a text passes the check, and is rendered to that text -/
theorem Template.render_of_writes {text : String} (h : Writes t.chain t.start.1 t.start.2 text) :
    t.recursiveElement? = none ∧ t.render = .ok text := by
  have hstops := (Template.stopsAt_iff hw hfits).2 ⟨text, rfl, h⟩
  have hcheck : t.recursiveElement? = none := by
    cases hrecursive : t.recursiveElement? with
    | none => rfl
    | some name => exact absurd hstops (Template.not_stopsAt hw hfits hrecursive _)
  obtain ⟨text', htext'⟩ := Template.render_of_check hw hfits hcheck
  have hunique : text' = text := (writes_of_run htext').unique h
  exact ⟨hcheck, hunique ▸ htext'⟩

end

/-- what compiled is rendered -/
theorem render_of_compiled {ds : List Document} {t : Template} (h : Compiled ds (some t)) :
    ∃ text, t.render = .ok text := by
  obtain ⟨rs, -, hr⟩ := compiled_reads h
  exact Template.render_of_check hr.wellBound (Realised.fits_start hr) (recursiveElement?_of_compiled h)

/-- **The check decides whether rendering ends.** A document on top of a chain that compiled passes the check exactly if
the machine that renders it stops after finitely many steps. What compiles is rendered, and a document is refused for an
element only if rendering would not end, would reach the element and, from there, the element again. -/
theorem recursion_check_exact {ds : List Document} {parent : Option Template} (h : Compiled ds parent) (d : Document) :
    (∀ t, draft d parent = .ok t → (t.recursiveElement? = none ↔ ∃ last, t.machine.StopsAt t.chain last)) ∧
      (∀ t, (compile d.block parent d.options).result = .ok t →
        ∃ text, t.render = .ok text ∧ t.machine.StopsAt t.chain ⟨[], text⟩) ∧
      ∀ name, (compile d.block parent d.options).result = .error (.recursiveElement name) →
        ∃ t, draft d parent = .ok t ∧ (∀ last, ¬ t.machine.StopsAt t.chain last) ∧ LeadsTo t.chain name t.start ∧
          ContainsItself t.chain name := by
  have hchain (t : Template) (hd : draft d parent = .ok t) : WellBound t.chain ∧ Fits t.chain none t.start := by
    obtain ⟨rs, -, hr⟩ := draft_reads h hd
    exact ⟨hr.wellBound, hr.fits_start⟩
  have hrenders (t : Template) (hd : draft d parent = .ok t) (hc : t.recursiveElement? = none) :
      ∃ text, t.render = .ok text ∧ t.machine.StopsAt t.chain ⟨[], text⟩ := by
    obtain ⟨hw, hfits⟩ := hchain t hd
    obtain ⟨text, htext⟩ := Template.render_of_check hw hfits hc
    exact ⟨text, htext, (Template.stopsAt_iff hw hfits).2 ⟨text, rfl, writes_of_run htext⟩⟩
  refine ⟨?_, ?_, ?_⟩
  · intro t hd
    constructor
    · intro hc
      obtain ⟨text, -, hstops⟩ := hrenders t hd hc
      exact ⟨_, hstops⟩
    · rintro ⟨last, hlast⟩
      obtain ⟨hw, hfits⟩ := hchain t hd
      cases hc : t.recursiveElement? with
      | none => rfl
      | some name => exact absurd hlast (Template.not_stopsAt hw hfits hc last)
  · intro t hc
    obtain ⟨hd, hc⟩ := compile_eq_ok.1 hc
    exact hrenders t hd hc
  · intro name hc
    obtain ⟨t, hd, hc⟩ := compile_eq_recursive.1 hc
    obtain ⟨hw, hfits⟩ := hchain t hd
    have hspec := Template.recursiveElement?_spec hw hfits
    rw [hc] at hspec
    exact ⟨t, hd, Template.not_stopsAt hw hfits hc, hspec⟩

/-- an element inside another one -/
def enclosing : Document where
  block := ⟨some "b", [.element ⟨false, some "div", some [some "outer"], none,
    some [.element ⟨false, some "div", some [some "inner"], none, none⟩]⟩]⟩

/-- the inner element taking the content of the outer one, which is itself -/
def reentrant : Document where
  block := ⟨some "c", [.element ⟨false, none, some [some "inner"], none, some [.superCall ⟨some "outer"⟩]⟩]⟩

theorem reentrant_is_endless :
    ∃ base t, (compile enclosing.block none enclosing.options).result = .ok base ∧
      (compile reentrant.block (some base) reentrant.options).result = .error (.recursiveElement "inner") ∧
      draft reentrant (some base) = .ok t ∧ (∀ last, ¬ t.machine.StopsAt t.chain last) ∧
      LeadsTo t.chain "inner" t.start ∧ ContainsItself t.chain "inner" := by
  obtain ⟨base, hbase⟩ : ∃ base, (compile enclosing.block none enclosing.options).result = .ok base := ⟨_, rfl⟩
  have hrefused :
      (compile reentrant.block (some base) reentrant.options).result = .error (.recursiveElement "inner") := by
    cases hbase
    rfl
  obtain ⟨-, -, herror⟩ := recursion_check_exact (.document enclosing .none hbase) reentrant
  obtain ⟨t, ht⟩ := herror "inner" hrefused
  exact ⟨base, t, hbase, hrefused, ht⟩

end BlockTemplates
