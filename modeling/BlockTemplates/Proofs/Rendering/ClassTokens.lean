/-
Class tokens. Every class operation of a compiled level comes from an element of its document, or of what helpers
returned there, and has the names of that element that are not private. A level with such an operation has prefixes,
and the levels that extend it have these and more. So wherever the operation is carried out, on behalf of whichever
template, there are tokens to write.

Main statements: `Parts.tokens_of_mem_ops` (where class operations come from), `compiled_prefixes` (what stands before
names), `compiled_classes` (what is known about the class operations of a level), `Machine.ops_of_after` (rendering
carries out operations of levels only) and `class_tokens`.
-/
import BlockTemplates.Proofs.Compiling.Verdict
import BlockTemplates.Proofs.Rendering.Recursion

namespace BlockTemplates

open Html Markup Render

/-! ## Where class operations come from -/

theorem classNames_of_mem_slotOps {slot : String × Option String} {classNames names : List String}
    (h : .elementClasses names ∈ slotOps classNames slot) : names = classNames ∧ classNames ≠ [] := by
  unfold slotOps at h
  dsimp only at h
  split at h
  · rename_i hclass
    simp only [List.mem_cons, reduceCtorEq, Op.elementClasses.injEq, List.not_mem_nil, or_false, false_or] at h
    exact ⟨h, hclass.2⟩
  · simp at h

theorem classNames_of_mem_attributeOps {slots : AttributeSlots} {classNames names : List String}
    (h : .elementClasses names ∈ attributeOps slots classNames) : names = classNames ∧ classNames ≠ [] := by
  unfold attributeOps at h
  rcases List.mem_append.1 h with h | h
  · split at h
    · rename_i hclass
      simp only [List.mem_cons, reduceCtorEq, Op.elementClasses.injEq, List.not_mem_nil, or_false, false_or] at h
      exact ⟨h, hclass.1⟩
    · simp at h
  · obtain ⟨slot, -, h⟩ := List.mem_flatMap.1 h
    exact classNames_of_mem_slotOps h

/-- the names are all those that the element gives tokens for, and there are some -/
structure Occurrence.Tokens (o : Occurrence) (names : List String) : Prop where
  own : o.element.classNames = names
  nonempty : names ≠ []

namespace Occurrence

theorem tokens_of_mem_openingOps {o : Occurrence} {names : List String} (h : .elementClasses names ∈ o.openingOps) :
    o.Tokens names := by
  simp only [openingOps, List.mem_cons, List.mem_append, reduceCtorEq, List.not_mem_nil, or_false, false_or] at h
  obtain ⟨rfl, hne⟩ := classNames_of_mem_attributeOps h
  exact ⟨rfl, hne⟩

theorem not_mem_closingOps {o : Occurrence} {names : List String} : .elementClasses names ∉ o.closingOps := by
  unfold closingOps closingTag
  split
  · simp
  · simp

theorem tokens_of_mem_renderOps {o : Occurrence} {name : String} {names : List String}
    (h : .elementClasses names ∈ o.renderOps name) : o.element.isHelper = false ∧ o.Tokens names := by
  unfold renderOps at h
  cases hh : o.element.isHelper with
  | true => simp [hh] at h
  | false =>
    rw [hh, if_neg (by simp)] at h
    refine ⟨rfl, ?_⟩
    rcases List.mem_append.1 h with h | h
    · rcases List.mem_append.1 h with h | h
      · exact tokens_of_mem_openingOps h
      · split at h
        · simp at h
        · simp at h
    · exact absurd h not_mem_closingOps

end Occurrence

namespace Parts

/-- an element with tags of its own has the names of a class operation -/
def WritesTokens (ps : Parts) (names : List String) : Prop := ∃ p ∈ ps.occurrences, HasTags p ∧ p.2.Tokens names

theorem WritesTokens.mono {ps qs : Parts} {names : List String} (hs : ∀ p ∈ ps.occurrences, p ∈ qs.occurrences)
    (h : ps.WritesTokens names) : qs.WritesTokens names := by
  obtain ⟨p, hp, htokens⟩ := h
  exact ⟨p, hs p hp, htokens⟩

theorem tokens_of_mem_ops {ps : Parts} {names : List String} (h : .elementClasses names ∈ ps.ops) :
    ps.WritesTokens names := by
  induction ps with
  | done => simp [ops] at h
  | text value rest ih => exact ih (by simpa [ops] using h)
  | superCall target rest ih => exact ih (by simpa [ops] using h)
  | named name o children rest _ ih =>
    refine (ih (by simpa [ops] using h)).mono fun p hp => ?_
    exact List.mem_cons_of_mem _ (List.mem_append_right _ hp)
  | anonymous o children rest ihc ih =>
    simp only [ops, List.mem_append] at h
    rcases h with ((h | h) | h) | h
    · exact ⟨(none, o), List.mem_cons_self, .inl rfl, Occurrence.tokens_of_mem_openingOps h⟩
    · exact (ihc h).mono fun p hp => List.mem_cons_of_mem _ (List.mem_append_left _ hp)
    · exact absurd h Occurrence.not_mem_closingOps
    · exact (ih h).mono fun p hp => List.mem_cons_of_mem _ (List.mem_append_right _ hp)

theorem mem_ofList {names : List String} {ops : List Op} (h : .elementClasses names ∈ (Buffer.ofList ops).toList) :
    .elementClasses names ∈ ops := by
  rcases Buffer.mem_toList_pushAll h with ⟨text, heq⟩ | h | h
  · cases heq
  · simp [Buffer.toList] at h
  · exact h

theorem tokens_of_definition {ps : Parts} {name : String} {d : Definition} (hd : (name, d) ∈ ps.definitions)
    {names : List String} (h : .elementClasses names ∈ (d.body name).render ++ (d.body name).content) :
    ps.WritesTokens names := by
  obtain ⟨hmem, hchildren⟩ := mem_occurrences_of_definition hd
  rcases List.mem_append.1 h with h | h
  · obtain ⟨hmarkup, htokens⟩ := Occurrence.tokens_of_mem_renderOps (mem_ofList h)
    exact ⟨_, hmem, .inr hmarkup, htokens⟩
  · exact (tokens_of_mem_ops (mem_ofList h)).mono hchildren

end Parts

/-! ## The operations of a level -/

/-- all operations of a level, those of definitions that are not in force included -/
def Level.operations (l : Level) : List Op := l.root ++ l.elements.flatMap fun p => p.2.render ++ p.2.content

theorem Level.Realises.tokens {l : Level} {ls : List Level} {r : Reading} (h : l.Realises ls r) {names : List String}
    (hop : .elementClasses names ∈ l.operations) : r.parts.WritesTokens names := by
  unfold Level.operations at hop
  rcases List.mem_append.1 hop with hop | hop
  · rw [h.root] at hop
    split at hop
    · exact Parts.tokens_of_mem_ops (Parts.mem_ofList hop)
    · simp at hop
  · rw [h.elements] at hop
    obtain ⟨p, hp, hop⟩ := List.mem_flatMap.1 hop
    obtain ⟨⟨name, d⟩, hd, rfl⟩ := List.mem_map.1 (List.mem_reverse.1 hp)
    exact Parts.tokens_of_definition hd hop

/-- names to make class tokens of: there are some, and none begins with an underscore -/
structure IsTokenNames (names : List String) : Prop where
  nonempty : names ≠ []
  isPublic : ∀ name ∈ names, name.toList.head? ≠ some '_'

theorem head?_ne_of_not_isPrivateName {name : String} (h : isPrivateName name = false) :
    name.toList.head? ≠ some '_' := by
  unfold isPrivateName at h
  intro hhead
  obtain ⟨rest, hrest⟩ := List.head?_eq_some_iff.1 hhead
  simp [hrest] at h

theorem Occurrence.Tokens.isTokenNames {o : Occurrence} {names : List String} (h : o.Tokens names) :
    IsTokenNames names := by
  refine ⟨h.nonempty, fun name hname => ?_⟩
  rw [← h.own] at hname
  exact head?_ne_of_not_isPrivateName (Element.not_isPrivateName_of_mem_classNames hname)

/-! ## The levels of a chain -/

/-- what stands before element names in class tokens, for documents with the leaf's first: what each document adds to
what there is above it -/
def tokenPrefixes : List Document → List String
  | [] => []
  | [d] => d.blockNames.map (· ++ "__")
  | d :: d' :: ds => (if d.blockNames = [] then [""] else d.blockNames.map (· ++ "__")) ++ tokenPrefixes (d' :: ds)

section

variable {ds : List Document} {parent : Option Template} {d : Document} {t : Template}

theorem draft_prefixes (hd : draft d parent = .ok t) :
    t.ancestors = levelsOf parent ∧
      t.leaf.prefixes = ownPrefixes d.blockNames (levelsOf parent) ++ leafPrefixes (levelsOf parent) := by
  obtain ⟨top, record, -, rfl⟩ := draft_eq_ok hd
  exact ⟨rfl, rfl⟩

theorem compiled_length (h : Compiled ds parent) : (levelsOf parent).length = ds.length := by
  induction h with
  | none => rfl
  | document d _ hc ih =>
    obtain ⟨hancestors, -⟩ := draft_prefixes (compile_eq_ok.1 hc).1
    change (_ :: _).length = _
    rw [List.length_cons, List.length_cons, hancestors, ih]

theorem ownPrefixes_append_leafPrefixes (h : Compiled ds parent) (d : Document)
    (hleaf : leafPrefixes (levelsOf parent) = tokenPrefixes ds) :
    ownPrefixes d.blockNames (levelsOf parent) ++ leafPrefixes (levelsOf parent) = tokenPrefixes (d :: ds) := by
  rw [hleaf]
  cases h with
  | none => simp [ownPrefixes, levelsOf, tokenPrefixes]
  | document d' _ _ =>
    by_cases hnames : d.blockNames = []
    · simp [ownPrefixes, levelsOf, Template.chain, tokenPrefixes, hnames]
    · simp [ownPrefixes, levelsOf, Template.chain, tokenPrefixes, hnames]

theorem leafPrefixes_levelsOf (h : Compiled ds parent) : leafPrefixes (levelsOf parent) = tokenPrefixes ds := by
  induction h with
  | none => rfl
  | @document ds parent t d hparent hc ih =>
    obtain ⟨-, hprefixes⟩ := draft_prefixes (compile_eq_ok.1 hc).1
    calc leafPrefixes (levelsOf (some t))
        = t.leaf.prefixes := rfl
      _ = ownPrefixes d.blockNames (levelsOf parent) ++ leafPrefixes (levelsOf parent) := hprefixes
      _ = tokenPrefixes (d :: ds) := ownPrefixes_append_leafPrefixes hparent d ih

/-- each level has the prefixes of the documents from its own up -/
theorem compiled_prefixes (h : Compiled ds parent) :
    ∀ i l, (levelsOf parent)[i]? = some l → l.prefixes = tokenPrefixes (ds.drop i) := by
  induction h with
  | none => simp [levelsOf]
  | @document ds parent t d hparent hc ih =>
    obtain ⟨hancestors, -⟩ := draft_prefixes (compile_eq_ok.1 hc).1
    intro i l hl
    cases i with
    | zero =>
      obtain rfl := Option.some.inj hl
      exact leafPrefixes_levelsOf (.document d hparent hc)
    | succ i =>
      change t.ancestors[i]? = some l at hl
      rw [hancestors] at hl
      exact ih i l hl

/-- what stands before element names above also does below -/
theorem prefixes_suffix (h : Compiled ds parent) :
    ∀ l ∈ levelsOf parent, l.prefixes <:+ leafPrefixes (levelsOf parent) := by
  induction h with
  | none => simp [levelsOf]
  | @document ds parent t d hparent hc ih =>
    obtain ⟨hancestors, hprefixes⟩ := draft_prefixes (compile_eq_ok.1 hc).1
    intro l hl
    change l ∈ t.leaf :: t.ancestors at hl
    change l.prefixes <:+ t.leaf.prefixes
    rcases List.mem_cons.1 hl with rfl | hl
    · exact List.suffix_rfl
    · rw [hprefixes]
      exact (ih l (hancestors ▸ hl)).trans (List.suffix_append _ _)

/-- a document with class operations is in order only if there is something to stand before its names -/
theorem draft_classes (h : Compiled ds parent) (hd : draft d parent = .ok t) {names : List String}
    (hop : .elementClasses names ∈ t.leaf.operations) : IsTokenNames names ∧ t.leaf.prefixes ≠ [] := by
  obtain ⟨rs, -, hparent⟩ := compiled_reads h
  obtain ⟨r, hreads, -, hrealised⟩ := draft_realises hparent hd
  obtain ⟨given, hverdict⟩ := verdict_of_draft hd
  rw [← hparent.context d] at hreads
  obtain ⟨-, hfaults⟩ := hreads.elementFault?_eq_none hverdict
  obtain ⟨⟨name, o⟩, ho, hmarkup, htokens⟩ : r.parts.WritesTokens names := by
    cases hrealised with
    | cons hl _ => exact hl.tokens hop
  have hmarkup : o.element.isHelper = false := hreads.isHelper_of_hasTags _ ho hmarkup
  have hclass : (d.surroundings (levelsOf parent)).classFault? o.element = none := by
    have hfault := hfaults _ ho
    rw [Surroundings.elementFault?, hmarkup, if_neg (by simp), Option.or_eq_none_iff] at hfault
    exact hfault.2
  refine ⟨htokens.isTokenNames, ?_⟩
  rw [(draft_prefixes hd).2]
  intro hnone
  have hprefixes : (d.surroundings (levelsOf parent)).hasPrefixes = false := by
    simp [Document.surroundings, hnone]
  simp [Surroundings.classFault?, hprefixes, htokens.own, htokens.nonempty] at hclass

/-- no level of a chain has class operations and nothing to stand before their names -/
theorem compiled_classes (h : Compiled ds parent) :
    ∀ l ∈ levelsOf parent, ∀ names, .elementClasses names ∈ l.operations → IsTokenNames names ∧ l.prefixes ≠ [] := by
  induction h with
  | none => simp [levelsOf]
  | @document ds parent t d hparent hc ih =>
    obtain ⟨hd, -⟩ := compile_eq_ok.1 hc
    intro l hl names hop
    change l ∈ t.leaf :: t.ancestors at hl
    rcases List.mem_cons.1 hl with rfl | hl
    · exact draft_classes hparent hd hop
    · exact ih l ((draft_prefixes hd).1 ▸ hl) names hop

end

/-! ## What rendering carries out -/

/-- operations of levels of the chain, to be carried out at a part of it -/
structure OfLevels (leaf : List Level) (place : Place) : Prop where
  suffix : place.1 <:+ leaf
  ops : ∀ op ∈ place.2, ∃ l ∈ leaf, op ∈ l.operations

section

variable {leaf : List Level}

theorem OfLevels.body {chain owner : List Level} {name : String} {body : Body} (hs : chain <:+ leaf)
    (hf : findBody name chain = some (owner, body)) :
    OfLevels leaf (owner, body.render) ∧ OfLevels leaf (owner, body.content) := by
  obtain ⟨howner, l, ls, rfl, hbody⟩ := findBody_suffix hf
  have hsuffix := howner.trans hs
  have hops : ∀ op ∈ body.render ++ body.content, op ∈ l.operations := by
    intro op hop
    obtain ⟨before, after, helements, -⟩ := List.lookup_eq_some_iff.1 hbody
    refine List.mem_append_right _ (List.mem_flatMap.2 ⟨(name, body), ?_, hop⟩)
    simp [helements]
  have hl : l ∈ leaf := hsuffix.subset List.mem_cons_self
  constructor
  · exact ⟨hsuffix, fun op hop => ⟨l, hl, hops op (List.mem_append_left _ hop)⟩⟩
  · exact ⟨hsuffix, fun op hop => ⟨l, hl, hops op (List.mem_append_right _ hop)⟩⟩

/-- what operations of levels invoke are operations of levels -/
theorem OfLevels.target {place next : Place} {op : Op} (h : OfLevels leaf place)
    (ht : target? leaf place.1 op = some next) : OfLevels leaf next := by
  cases op with
  | literal text => simp [target?] at ht
  | elementClasses names => simp [target?] at ht
  | invokeElement name =>
    obtain ⟨⟨owner, body⟩, hf, rfl⟩ := Option.map_eq_some_iff.1 ht
    exact (OfLevels.body List.suffix_rfl hf).1
  | invokeContent name =>
    obtain ⟨⟨owner, body⟩, hf, rfl⟩ := Option.map_eq_some_iff.1 ht
    exact (OfLevels.body List.suffix_rfl hf).2
  | superContent name =>
    obtain ⟨⟨owner, body⟩, hf, rfl⟩ := Option.map_eq_some_iff.1 ht
    exact (OfLevels.body ((List.tail_suffix place.1).trans h.suffix) hf).2

theorem OfLevels.start (t : Template) : OfLevels t.chain t.start := by
  obtain ⟨l, hl⟩ : ∃ l, t.chain.getLast? = some l := by simp [Template.chain, List.getLast?_cons]
  obtain ⟨howner, hops⟩ := t.rootOwner_eq hl
  obtain ⟨ls, hls⟩ := List.getLast?_eq_some_iff.1 hl
  unfold Template.start
  rw [howner, hops]
  refine ⟨⟨ls, hls.symm⟩, fun op hop => ⟨l, ?_, List.mem_append_left _ hop⟩⟩
  simp [hls]

/-- whatever rendering comes to, what is still to be carried out are operations of levels -/
theorem Machine.ops_of_after {t : Template} {n : Nat} {m : Machine} (h : t.machine.after t.chain n = some m) :
    ∀ place ∈ m.frames, OfLevels t.chain place := by
  refine forall_after ?_ ?_ ?_ h
  · intro owner op ops hplace
    exact ⟨hplace.suffix, fun op' hop' => hplace.ops op' (List.mem_cons_of_mem _ hop')⟩
  · intro owner op ops next hplace ht
    exact hplace.target ht
  · simp [Template.machine, OfLevels.start]

end

/-! ## Tokens -/

/-- the tokens of all names, those of one name together -/
theorem getElem?_tokens {α β γ : Type} (f : α → β → γ) (xs : List α) (ys : List β) {i j : Nat} {x : α} {y : β}
    (hx : xs[i]? = some x) (hy : ys[j]? = some y) :
    (xs.flatMap fun x => ys.map (f x))[i * ys.length + j]? = some (f x y) := by
  obtain ⟨hj, -⟩ := List.getElem?_eq_some_iff.1 hy
  induction xs generalizing i with
  | nil => simp at hx
  | cons x' xs ih =>
    rw [List.flatMap_cons]
    cases i with
    | zero =>
      obtain rfl := Option.some.inj hx
      rw [Nat.zero_mul, Nat.zero_add, List.getElem?_append_left (by simpa using hj), List.getElem?_map, hy]
      rfl
    | succ i =>
      have hbehind : (i + 1) * ys.length + j - (ys.map (f x')).length = i * ys.length + j := by
        rw [List.length_map, Nat.succ_mul]
        omega
      rw [List.getElem?_append_right (by rw [List.length_map, Nat.succ_mul]; omega), hbehind]
      exact ih hx

theorem length_tokens {α β γ : Type} (f : α → β → γ) (xs : List α) (ys : List β) :
    (xs.flatMap fun x => ys.map (f x)).length = xs.length * ys.length := by
  induction xs with
  | nil => simp
  | cons x xs ih =>
    rw [List.flatMap_cons, List.length_append, ih, List.length_map, List.length_cons, Nat.succ_mul]
    omega

/-- **Class tokens.** In every chain that compiled, each level has the prefixes of the documents from its own up, and
every class operation has names, none of them private. Wherever rendering comes to such an operation, the template that
is rendered has prefixes, and what is written are the names in their order, each with all prefixes in theirs, escaped
and with single spaces between them. -/
theorem class_tokens {ds : List Document} {t : Template} (h : Compiled ds (some t)) :
    (t.chain.length = ds.length ∧ ∀ i l, t.chain[i]? = some l → l.prefixes = tokenPrefixes (ds.drop i)) ∧
      (∀ l ∈ t.chain, ∀ names, .elementClasses names ∈ l.operations → IsTokenNames names) ∧
      (∃ n text, t.render = .ok text ∧ t.machine.after t.chain n = some ⟨[], text⟩) ∧
      ∀ n m owner names ops frames, t.machine.after t.chain n = some m →
        m.frames = (owner, .elementClasses names :: ops) :: frames →
        IsTokenNames names ∧ t.leaf.prefixes ≠ [] ∧
          ∃ tokens : List String, m.step t.chain = some ⟨(owner, ops) :: frames, m.out ++ " ".intercalate tokens⟩ ∧
            tokens.length = names.length * t.leaf.prefixes.length ∧
            ∀ i j name p, names[i]? = some name → t.leaf.prefixes[j]? = some p →
              tokens[i * t.leaf.prefixes.length + j]? = some (escapeAttribute p ++ escapeAttribute name) := by
  have hclasses := compiled_classes h
  refine ⟨⟨compiled_length h, compiled_prefixes h⟩, ?_, ?_, ?_⟩
  · intro l hl names hop
    exact (hclasses l hl names hop).1
  · obtain ⟨rs, -, hrealised⟩ := compiled_reads h
    obtain ⟨text, hrender⟩ := Template.render_of_check (Realised.wellBound hrealised) (Realised.fits_start hrealised)
      (recursiveElement?_of_compiled h)
    obtain ⟨n, hn⟩ := writes_iff_after.1 (writes_of_run hrender)
    exact ⟨n, text, hrender, hn⟩
  · rintro n ⟨_, out⟩ owner names ops frames hafter rfl
    obtain ⟨l, hl, hop⟩ := (Machine.ops_of_after hafter _ List.mem_cons_self).ops _ List.mem_cons_self
    obtain ⟨hnames, hprefixes⟩ := hclasses l hl names hop
    refine ⟨hnames, ?_, _, rfl, length_tokens _ names _, ?_⟩
    · intro hnone
      have hsuffix : l.prefixes <:+ t.leaf.prefixes := prefixes_suffix h l hl
      rw [hnone, List.suffix_nil] at hsuffix
      exact hprefixes hsuffix
    · intro i j name p hname hp
      exact getElem?_tokens (fun name p => escapeAttribute p ++ escapeAttribute name) names _ hname hp

/-- a title, one of whose names is private -/
def headed : Document where
  block := ⟨some "a", [.element ⟨false, some "h1", some [some "title", some "_own"], none, some [.text "t"]⟩]⟩

/-- nothing, under two block names -/
def renamed : Document where
  block := ⟨none, []⟩
  options := { blockNames := ["b", "c"] }

theorem renamed_adds_tokens :
    ∃ t m owner ops frames, Compiled [renamed, headed] (some t) ∧ t.machine.after t.chain 2 = some m ∧
      m.frames = (owner, .elementClasses ["title"] :: ops) :: frames ∧ m.out = "<h1 class=\"" ∧
      IsTokenNames ["title"] ∧ t.leaf.prefixes = ["b__", "c__", "a__"] ∧
      ∃ tokens : List String, m.step t.chain = some ⟨(owner, ops) :: frames, m.out ++ " ".intercalate tokens⟩ ∧
        tokens.length = 3 ∧ tokens[1]? = some "c__title" := by
  obtain ⟨base, hbase⟩ : ∃ base, (compile headed.block none headed.options).result = .ok base := ⟨_, rfl⟩
  obtain ⟨t, ht, hprefixes, m, hafter, owner, ops, frames, hframes, hout⟩ :
      ∃ t, (compile renamed.block (some base) renamed.options).result = .ok t ∧
        t.leaf.prefixes = ["b__", "c__", "a__"] ∧ ∃ m, t.machine.after t.chain 2 = some m ∧
          ∃ owner ops frames, m.frames = (owner, .elementClasses ["title"] :: ops) :: frames ∧
            m.out = "<h1 class=\"" := by
    cases hbase
    exact ⟨_, rfl, rfl, _, rfl, _, _, _, rfl, rfl⟩
  have hcompiled : Compiled [renamed, headed] (some t) := .document _ (.document _ .none hbase) ht
  obtain ⟨-, -, -, hexecuted⟩ := class_tokens hcompiled
  obtain ⟨hnames, -, tokens, hstep, hlength, htokens⟩ := hexecuted 2 m owner ["title"] ops frames hafter hframes
  rw [hprefixes] at hlength htokens
  exact ⟨t, m, owner, ops, frames, hcompiled, hafter, hframes, hout, hnames, hprefixes, tokens, hstep, hlength,
    htokens 0 1 "title" "c__" rfl rfl⟩

end BlockTemplates
