/-
Extensions that define nothing in use. A level that defines no element which rendering invokes is never found when
something is looked up, and its top-level markup is not kept. All that it changes is what stands before element names in
class tokens.

Main statements: `Writes.extend` (operations write under such a level what they write without it, its prefixes apart) and
`unused_extension`.
-/
import BlockTemplates.Proofs.Rendering.Expansion

namespace BlockTemplates

open Markup Render

/-! ## Other prefixes -/

/-- the level with other class prefixes -/
def Level.withPrefixes (l : Level) (prefixes : List String) : Level := { l with prefixes := prefixes }

/-- the template with other class prefixes -/
def Template.withPrefixes (t : Template) (prefixes : List String) : Template where
  leaf := t.leaf.withPrefixes prefixes
  ancestors := t.ancestors

/-- the prefixes of an extension: one for each of its block names, or an empty one if it has none, then those of the
template that it extends -/
def extensionPrefixes (blockNames : List String) (t : Template) : List String :=
  (if blockNames.isEmpty then [""] else blockNames.map (· ++ "__")) ++ t.leaf.prefixes

theorem ownPrefixes_extension (blockNames : List String) (t : Template) :
    ownPrefixes blockNames t.chain ++ leafPrefixes t.chain = extensionPrefixes blockNames t := by
  simp [ownPrefixes, extensionPrefixes, leafPrefixes, Template.chain]

/-- prefixes have no part in looking up elements -/
theorem findBody_withPrefixes {name : String} {l : Level} {ls owner : List Level} {body : Body} (prefixes : List String)
    (h : findBody name (l :: ls) = some (owner, body)) :
    ∃ owner', findBody name (l.withPrefixes prefixes :: ls) = some (owner', body) ∧ owner'.tail = owner.tail := by
  have hlookup : (l.withPrefixes prefixes).elements.lookup name = l.elements.lookup name := rfl
  unfold findBody at h ⊢
  rw [hlookup]
  cases hl : l.elements.lookup name with
  | some b =>
    rw [hl] at h
    cases h
    exact ⟨_, rfl, rfl⟩
  | none =>
    rw [hl] at h
    exact ⟨owner, h, rfl⟩

/-- with other prefixes, the levels of a chain still hold what some readings say -/
theorem Realised.withPrefixes {rs : List Reading} {t : Template} (h : Realised rs t.chain) (prefixes : List String) :
    ∃ rs', Realised rs' (t.withPrefixes prefixes).chain := by
  cases h with
  | @cons r rs _ _ hl hs =>
    exact ⟨{ r with prefixes := prefixes } :: rs,
      .cons ⟨rfl, hl.root, hl.elements, hl.tagNames, hl.attributeLists, hl.targets⟩ hs⟩

theorem Template.start_withPrefixes (t : Template) (prefixes : List String) :
    (t.withPrefixes prefixes).start.1.tail = t.start.1.tail ∧ (t.withPrefixes prefixes).start.2 = t.start.2 := by
  refine ⟨rfl, ?_⟩
  simp only [Template.start, Template.rootOps, Template.withPrefixes]
  cases t.ancestors.getLast? with
  | none => rfl
  | some l => rfl

/-! ## Levels that are not found -/

theorem findBody_of_not_defines {name : String} {l : Level} (h : l.defines name = false) (ls : List Level) :
    findBody name (l :: ls) = findBody name ls := by
  unfold Level.defines at h
  rw [Option.isSome_eq_false_iff, Option.isNone_iff_eq_none] at h
  simp only [findBody, h]

section

variable {l l₀ : Level} {ls : List Level}

/-- an operation that names an element which the level does not define invokes the same under it as without it -/
theorem target?_extend {own : Option String} {owner owner' : List Level} {op : Op} {place : Place}
    (ht : target? (l₀ :: ls) owner op = some place) (hop : op.Resolves owner own)
    (hown : ∀ name, own = some name → l.defines name = false)
    (hunused : ∀ name, op = .invokeElement name → l.defines name = false) (htail : owner'.tail = owner.tail) :
    target? (l :: l₀ :: ls) owner op = some place ∧
      ∃ level, target? (l₀.withPrefixes l.prefixes :: ls) owner' op = some (level, place.2) ∧
        level.tail = place.1.tail := by
  cases op with
  | literal text => simp [target?] at ht
  | elementClasses names => simp [target?] at ht
  | invokeElement name =>
    simp only [target?, Option.map_eq_some_iff] at ht
    obtain ⟨⟨level, body⟩, hbody, rfl⟩ := ht
    obtain ⟨level', hbody', hlevel⟩ := findBody_withPrefixes l.prefixes hbody
    have hfound := findBody_of_not_defines (hunused name rfl) (l₀ :: ls)
    exact ⟨by simp [target?, hfound, hbody], level', by simp [target?, hbody'], hlevel⟩
  | invokeContent name =>
    -- the content of an element is invoked by its own tags alone
    obtain ⟨hname, -⟩ := hop
    simp only [target?, Option.map_eq_some_iff] at ht
    obtain ⟨⟨level, body⟩, hbody, rfl⟩ := ht
    obtain ⟨level', hbody', hlevel⟩ := findBody_withPrefixes l.prefixes hbody
    have hfound := findBody_of_not_defines (hown name hname) (l₀ :: ls)
    exact ⟨by simp [target?, hfound, hbody], level', by simp [target?, hbody'], hlevel⟩
  | superContent name =>
    refine ⟨ht, place.1, ?_, rfl⟩
    simpa only [target?, htail] using ht

/-- what operations write, they write under a level that defines nothing they lead to, and without it if the prefixes
are the same -/
theorem Writes.extend (hw : WellBound (l₀ :: ls)) {owner owner' : List Level} {ops : List Op} {text : String}
    (h : Writes (l₀ :: ls) owner ops text) {own : Option String} (hfits : Fits (l₀ :: ls) own (owner, ops))
    (hown : ∀ name, own = some name → l.defines name = false)
    (hunused : ∀ name, LeadsTo (l₀ :: ls) name (owner, ops) → l.defines name = false)
    (htail : owner'.tail = owner.tail) :
    ∃ text', Writes (l :: l₀ :: ls) owner ops text' ∧ Writes (l₀.withPrefixes l.prefixes :: ls) owner' ops text' := by
  induction h generalizing own owner' with
  | done => exact ⟨"", .done, .done⟩
  | literal text _ ih =>
    obtain ⟨t, h, h'⟩ := ih hfits.tail hown (fun name hn => hunused name (leadsTo_cons_iff.2 (.inr hn))) htail
    exact ⟨_, .literal text h, .literal text h'⟩
  | classes names _ ih =>
    obtain ⟨t, h, h'⟩ := ih hfits.tail hown (fun name hn => hunused name (leadsTo_cons_iff.2 (.inr hn))) htail
    exact ⟨_, .classes names h, .classes names h'⟩
  | @invoke owner op ops s t place ht _ _ ihs iht =>
    have hstep (name : String) (hn : LeadsBy (l₀ :: ls) owner op name) : l.defines name = false :=
      hunused name (leadsTo_cons_iff.2 (.inl hn))
    obtain ⟨htarget, level, htarget', hlevel⟩ := target?_extend ht (hfits.ops op List.mem_cons_self) hown
      (fun name hn => hstep name (.inl hn)) htail
    have hplace (name : String) (hn : op.tagsOf = some name) : l.defines name = false :=
      hstep name (.inl (Op.eq_invokeElement hn))
    obtain ⟨s', hs, hs'⟩ := ihs (hfits.target hw ht) hplace (fun name hn => hstep name (.inr ⟨place, ht, hn⟩)) hlevel
    obtain ⟨t', hrest, hrest'⟩ := iht hfits.tail hown (fun name hn => hunused name (leadsTo_cons_iff.2 (.inr hn))) htail
    exact ⟨s' ++ t', .invoke htarget hs hrest, .invoke htarget' hs' hrest'⟩

end

/-! ## Extensions -/

/-- what is drafted on top of a template stands on its levels, renders its top-level operations, and has its prefixes
behind the own ones -/
theorem draft_extension {d : Document} {t t' : Template} (h : draft d (some t) = .ok t') :
    t'.chain = t'.leaf :: t.chain ∧ t'.start = t.start ∧ t'.leaf.prefixes = extensionPrefixes d.blockNames t := by
  obtain ⟨top, record, -, rfl⟩ := draft_eq_ok h
  refine ⟨rfl, ?_, ownPrefixes_extension d.blockNames t⟩
  have hlast (l : Level) : (assemble d.blockNames (ownPrefixes d.blockNames (levelsOf (some t)) ++
      leafPrefixes (levelsOf (some t))) (levelsOf (some t)) top record).ancestors.getLast?.getD l =
        t.ancestors.getLast?.getD t.leaf := by
    change (t.leaf :: t.ancestors).getLast?.getD l = _
    rw [List.getLast?_cons, Option.getD_some]
  simp only [Template.start, Template.rootOwner, Template.rootOps, hlast]

/-- **An extension that defines nothing in use only adds class tokens.** If the walk over a document on top of a template
succeeds and defines no element that rendering the template invokes, then the document compiles, and is rendered as the
template would be with the prefixes of the document in front of its own. Rendering begins with the top-level operations
of the template, whatever markup the document has at its top level. -/
theorem unused_extension {ds : List Document} {t t' : Template} {d : Document} (h : Compiled ds (some t))
    (hd : draft d (some t) = .ok t') (hunused : ∀ name, LeadsTo t.chain name t.start → t'.leaf.defines name = false) :
    (compile d.block (some t) d.options).result = .ok t' ∧ t'.start = t.start ∧
      ∃ text, t'.render = .ok text ∧ (t.withPrefixes (extensionPrefixes d.blockNames t)).render = .ok text := by
  obtain ⟨rs, -, hleaf⟩ := compiled_reads h
  change Realised rs t.chain at hleaf
  obtain ⟨_, -, hextended⟩ := draft_reads h hd
  obtain ⟨hchain, hstart, hprefixes⟩ := draft_extension hd
  obtain ⟨text, htext⟩ :=
    Template.render_of_check hleaf.wellBound (Realised.fits_start hleaf) (recursiveElement?_of_compiled h)
  have hwrites : Writes t.chain t.start.1 t.start.2 text := writes_of_run htext
  obtain ⟨htail, hops⟩ := t.start_withPrefixes (extensionPrefixes d.blockNames t)
  obtain ⟨text', hextends, hprefixed⟩ :=
    hwrites.extend hleaf.wellBound (Realised.fits_start hleaf) (by simp) hunused htail
  rw [hprefixes, ← hops] at hprefixed
  have hrender : (t.withPrefixes (extensionPrefixes d.blockNames t)).render = .ok text' := by
    obtain ⟨rs', hother⟩ := hleaf.withPrefixes (extensionPrefixes d.blockNames t)
    exact (Template.render_of_writes hother.wellBound (Realised.fits_start hother) hprefixed).2
  change Writes (t'.leaf :: t.chain) t.start.1 t.start.2 text' at hextends
  rw [← hchain, ← hstart] at hextends
  obtain ⟨hcheck, hrender'⟩ := Template.render_of_writes hextended.wellBound (Realised.fits_start hextended) hextends
  exact ⟨compile_eq_ok.2 ⟨hd, hcheck⟩, hstart, text', hrender', hrender⟩

/-- the check follows all elements that rendering invokes -/
theorem Template.mem_of_leadsTo {t : Template} (hw : WellBound t.chain) (hfits : Fits t.chain none t.start)
    {done : List String} (h : follow t.chain (t.depthBound + 1) t.rootOwner [] t.rootOps [] = .ok done) {name : String}
    (hleads : LeadsTo t.chain name t.start) : name ∈ done := by
  have hspec := Template.followed_start hw hfits
  rw [h] at hspec
  obtain ⟨-, -, -, hreached⟩ := hspec
  exact hreached name hleads

/-- the outer element without the inner one, which nothing invokes any more -/
def shut : Document where
  block := ⟨some "c", [.element ⟨false, none, some [some "outer"], none, some [.text "shut"]⟩]⟩

/-- more for the inner element, and markup at the top level -/
def unseen : Document where
  block := ⟨some "d", [.text "unseen", .element ⟨false, none, some [some "inner"], none, some [.text "unseen"]⟩]⟩

theorem unseen_adds_classes :
    ∃ t t', Compiled [shut, enclosing] (some t) ∧ draft unseen (some t) = .ok t' ∧
      (∀ name, LeadsTo t.chain name t.start → t'.leaf.defines name = false) ∧
      (compile unseen.block (some t) unseen.options).result = .ok t' ∧
      t'.render = .ok "<div class=\"d__outer c__outer b__outer\">shut</div>" := by
  obtain ⟨base, hbase⟩ : ∃ base, (compile enclosing.block none enclosing.options).result = .ok base := ⟨_, rfl⟩
  obtain ⟨t, ht, t', ht', hfollowed, hundefined, hrender⟩ :
      ∃ t, (compile shut.block (some base) shut.options).result = .ok t ∧ ∃ t', draft unseen (some t) = .ok t' ∧
        follow t.chain (t.depthBound + 1) t.rootOwner [] t.rootOps [] = .ok ["outer"] ∧
        t'.leaf.defines "outer" = false ∧
        (t.withPrefixes (extensionPrefixes unseen.blockNames t)).render =
          .ok "<div class=\"d__outer c__outer b__outer\">shut</div>" := by
    cases hbase
    exact ⟨_, rfl, _, rfl, rfl, rfl, rfl⟩
  have hcompiled : Compiled [shut, enclosing] (some t) := .document _ (.document _ .none hbase) ht
  have hunused (name : String) (hleads : LeadsTo t.chain name t.start) : t'.leaf.defines name = false := by
    obtain ⟨_, -, hleaf⟩ := compiled_reads hcompiled
    obtain rfl := List.mem_singleton.1
      (Template.mem_of_leadsTo hleaf.wellBound (Realised.fits_start hleaf) hfollowed hleads)
    exact hundefined
  obtain ⟨hcompile, -, text, htext, hprefixed⟩ := unused_extension hcompiled ht' hunused
  cases hrender.symm.trans hprefixed
  exact ⟨t, t', hcompiled, ht', hunused, hcompile, htext⟩

end BlockTemplates
