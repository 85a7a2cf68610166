/-
Invocations of contents that are empty. An element that is written with nothing in its braces does not invoke its
content; one with something in them that comes to nothing does, and the invocation writes nothing. Templates that differ
in no other way are the same once such invocations are left out, and the check for elements that contain themselves finds
the same in them. They are rendered to the same markup, and so are the templates that extend them.

Main statements: `ofList_filter` (literals are merged alike before and after operations are left out),
`Template.recursiveElement?_pruned` (the check), `writes_pruned` (rendering), `draft_pruned` (extending) and
`compiled_of_pruned`.
-/
import BlockTemplates.Proofs.Rendering.Expansion
import BlockTemplates.Proofs.Rendering.Outline
import Mathlib.Data.List.Induction

namespace BlockTemplates

open Markup Render

/-! ## Leaving operations out -/

theorem Render.Buffer.pushText_pushText (b : Buffer) (s t : String) :
    (b.pushText s).pushText t = b.pushText (s ++ t) := by
  by_cases hs : s = ""
  · simp [hs]
  · by_cases ht : t = ""
    · simp [ht]
    · obtain ⟨reversed⟩ := b
      cases reversed with
      | nil => simp [Buffer.pushText, hs, ht]
      | cons op ops =>
        cases op with
        | literal last => simp [Buffer.pushText, hs, ht, String.append_assoc]
        | _ => simp [Buffer.pushText, hs, ht]

theorem Render.Buffer.ofList_append (ops ops' : List Op) :
    Buffer.ofList (ops ++ ops') = (Buffer.ofList ops).pushAll ops' :=
  Buffer.pushAll_append {} ops ops'

section

variable {p : Op → Bool} (hp : ∀ text, p (.literal text) = true)
include hp

/-- leaving operations out that are not literals, before or after another one is collected -/
theorem ofList_filter_push (b : Buffer) (op : Op) :
    Buffer.ofList ((b.push op).toList.filter p) = (Buffer.ofList (b.toList.filter p)).pushAll ([op].filter p) := by
  cases op with
  | literal text =>
    have hsingle (text : String) : [Op.literal text].filter p = [.literal text] := by simp [hp]
    rw [hsingle]
    change Buffer.ofList ((b.pushText text).toList.filter p) = (Buffer.ofList (b.toList.filter p)).pushText text
    by_cases ht : text = ""
    · subst ht
      rw [Buffer.pushText_empty, Buffer.pushText_empty]
    · by_cases hlast : ∃ last, b.toList.getLast? = some (.literal last)
      · obtain ⟨last, hlast⟩ := hlast
        obtain ⟨ops, hops⟩ := List.getLast?_eq_some_iff.1 hlast
        rw [Buffer.toList_pushText_literal ht hops, hops, List.filter_append, List.filter_append, hsingle, hsingle,
          Buffer.ofList_append, Buffer.ofList_append]
        exact (Buffer.pushText_pushText _ last text).symm
      · rw [Buffer.toList_pushText ht fun last h => hlast ⟨last, h⟩, List.filter_append, hsingle, Buffer.ofList_append]
        rfl
  | _ => rw [Buffer.toList_push (by simp), List.filter_append, Buffer.ofList_append]

/-- where no literals are left out, they are merged alike before and after -/
theorem ofList_filter (ops : List Op) :
    Buffer.ofList ((Buffer.ofList ops).toList.filter p) = Buffer.ofList (ops.filter p) := by
  induction ops using List.reverseRecOn with
  | nil => rfl
  | append_singleton ops op ih =>
    rw [Buffer.ofList_append, List.filter_append, Buffer.ofList_append, ← ih]
    exact ofList_filter_push hp (Buffer.ofList ops) op

end

/-! ## Levels without invocations of empty contents -/

/-- the body of an element; if its content is empty, its tags do not invoke it -/
def Body.pruned (name : String) (b : Body) : Body :=
  if b.content = [] then { b with render := (Buffer.ofList (b.render.filter (· ≠ .invokeContent name))).toList } else b

def Level.pruned (l : Level) : Level := { l with elements := l.elements.map fun p => (p.1, p.2.pruned p.1) }

/-- the template without invocations of contents that are empty -/
def Template.pruned (t : Template) : Template where
  leaf := t.leaf.pruned
  ancestors := t.ancestors.map Level.pruned

theorem content_pruned (name : String) (b : Body) : (b.pruned name).content = b.content := by
  unfold Body.pruned
  split
  · rfl
  · rfl

theorem findBody_pruned (name : String) (ls : List Level) :
    findBody name (ls.map Level.pruned) = (findBody name ls).map fun p => (p.1.map Level.pruned, p.2.pruned name) := by
  induction ls with
  | nil => rfl
  | cons l ls ih =>
    have hlookup : l.pruned.elements.lookup name = (l.elements.lookup name).map (Body.pruned name) :=
      lookup_map_snd Body.pruned name l.elements
    simp only [List.map_cons, findBody, hlookup]
    cases l.elements.lookup name with
    | none => exact ih
    | some body => rfl

/-- contents are invoked as they are -/
theorem target?_pruned {leaf owner : List Level} {op : Op} (h : op.tagsOf = none) :
    target? (leaf.map Level.pruned) (owner.map Level.pruned) op =
      (target? leaf owner op).map fun place => (place.1.map Level.pruned, place.2) := by
  cases op with
  | literal text => rfl
  | elementClasses names => rfl
  | invokeElement name => cases h
  | invokeContent name => simp [target?, findBody_pruned, content_pruned, Function.comp_def]
  | superContent name => simp [target?, ← List.map_tail, findBody_pruned, content_pruned, Function.comp_def]

/-! ## The check -/

/-- the check sees nothing but what operations invoke -/
theorem follow_calls (leaf : List Level) (depth : Nat) (owner : List Level) (active : List String) (ops : List Op)
    (done : List String) : follow leaf depth owner active (calls ops) done = follow leaf depth owner active ops done := by
  cases depth with
  | zero => rfl
  | succ depth =>
    rw [follow_succ, follow_succ]
    induction ops generalizing done with
    | nil => rfl
    | cons op ops ih =>
      rw [List.foldlM_cons]
      cases hcall : op.isCall with
      | true =>
        rw [calls, List.filter_cons_of_pos hcall, List.foldlM_cons]
        exact congrArg (visit leaf (follow leaf depth) owner active done op >>= ·) (funext ih)
      | false =>
        rw [calls, List.filter_cons_of_neg (by simp [hcall]), visit_of_not_isCall hcall]
        exact ih done

/-- invocations of an empty content can be left out, where there is depth to follow them -/
theorem follow_filter {leaf owner level : List Level} {depth : Nat} {name : String} (hdepth : 2 ≤ depth)
    (ht : target? leaf owner (.invokeContent name) = some (level, [])) (active : List String) (ops : List Op)
    (done : List String) :
    follow leaf depth owner active (ops.filter (· ≠ .invokeContent name)) done =
      follow leaf depth owner active ops done := by
  obtain ⟨depth, rfl⟩ : ∃ k, depth = k + 2 := ⟨depth - 2, by omega⟩
  rw [follow_succ, follow_succ]
  induction ops generalizing done with
  | nil => rfl
  | cons op ops ih =>
    rw [List.foldlM_cons]
    by_cases hop : op = .invokeContent name
    · subst hop
      have hvisit : visit leaf (follow leaf (depth + 1)) owner active done (.invokeContent name) = .ok done := by
        simp only [visit, ht]
        rfl
      rw [List.filter_cons_of_neg (by simp), hvisit]
      exact ih done
    · rw [List.filter_cons_of_pos (by simpa using hop), List.foldlM_cons]
      exact congrArg (visit leaf (follow leaf (depth + 1)) owner active done op >>= ·) (funext ih)

/-- so the tags of an element are followed alike with the invocations of its content and without, if that is empty -/
theorem follow_render_pruned {leaf level : List Level} {depth : Nat} {name : String} {b : Body} (hdepth : 2 ≤ depth)
    (hb : findBody name leaf = some (level, b.pruned name)) (active done : List String) :
    follow leaf depth level active (b.pruned name).render done = follow leaf depth level active b.render done := by
  by_cases hempty : b.content = []
  · have ht : target? leaf level (.invokeContent name) = some (level, []) := by
      simp [target?, hb, content_pruned, hempty]
    rw [Body.pruned, if_pos hempty, ← follow_calls, calls_ofList, follow_calls, follow_filter hdepth ht]
  · rw [Body.pruned, if_neg hempty]

theorem findBody_pruned_eq_some {leaf level : List Level} {name : String} {b : Body}
    (hb : findBody name leaf = some (level, b)) :
    findBody name (leaf.map Level.pruned) = some (level.map Level.pruned, b.pruned name) := by
  rw [findBody_pruned, hb]
  rfl

section

variable {leaf : List Level} (hw : WellBound leaf)
include hw

/-- one operation of pruned levels is followed as it is in the levels, if this is so one step less deep -/
theorem visit_pruned {depth : Nat} {own : Option String} {owner : List Level} {active : List String} {ops : List Op}
    {op : Op} (hfits : Fits leaf own (owner, ops)) (hop : op ∈ ops) (hrank : rank leaf own active owner < depth + 1)
    (ih : ∀ {own owner active done ops}, Fits leaf own (owner, ops) → rank leaf own active owner < depth →
      follow (leaf.map Level.pruned) depth (owner.map Level.pruned) active ops done =
        follow leaf depth owner active ops done) (done : List String) :
    visit (leaf.map Level.pruned) (follow (leaf.map Level.pruned) depth) (owner.map Level.pruned) active done op =
      visit leaf (follow leaf depth) owner active done op := by
  rcases hfits.cases hop with ⟨text, rfl⟩ | ⟨names, rfl⟩ | ⟨⟨level, next⟩, ht⟩
  · rfl
  · rfl
  have hnext (ha : ∀ name, op.tagsOf = some name → name ∉ active) :
      rank leaf op.tagsOf (op.activeIn active) level < depth :=
    Nat.lt_of_lt_of_le (hfits.rank_lt hop ht ha) (Nat.le_of_lt_succ hrank)
  have hfitsNext := hfits.target hw ht
  have hcontents (h : op.tagsOf = none) :
      target? (leaf.map Level.pruned) (owner.map Level.pruned) op = some (level.map Level.pruned, next) :=
    (target?_pruned h).trans (congrArg _ ht)
  cases op with
  | literal text => rfl
  | elementClasses names => rfl
  | invokeElement name =>
    obtain ⟨_, b, hb, heq⟩ := target?_invokeElement.1 ht
    cases heq
    have hb' := findBody_pruned_eq_some hb
    have ht' : target? (leaf.map Level.pruned) (owner.map Level.pruned) (.invokeElement name) =
        some (level.map Level.pruned, (b.pruned name).render) := target?_invokeElement.2 ⟨_, _, hb', rfl⟩
    simp only [visit, ht, ht']
    split
    · rfl
    · split
      · rfl
      · rename_i hactive
        have hlt := hnext (by rintro _ ⟨⟩; exact hactive)
        -- the chain is not empty, so that there is depth to follow the content of the element as well
        have hdepth : 2 ≤ depth := by
          have hne : leaf.length ≠ 0 := by
            intro hzero
            simp [List.eq_nil_of_length_eq_zero hzero, findBody] at hb
          simp only [rank, Op.tagsOf, Option.isSome_some, if_true] at hlt
          omega
        rw [follow_render_pruned hdepth hb']
        exact congrArg _ (ih hfitsNext hlt)
  | invokeContent name =>
    simp only [visit, hcontents rfl, ht]
    exact ih hfitsNext (hnext (by simp [Op.tagsOf]))
  | superContent name =>
    simp only [visit, hcontents rfl, ht]
    exact ih hfitsNext (hnext (by simp [Op.tagsOf]))

/-- the check follows the operations of pruned levels as it does those of the levels -/
theorem follow_pruned {depth : Nat} {own : Option String} {owner : List Level} {active done : List String}
    {ops : List Op} (hfits : Fits leaf own (owner, ops)) (hrank : rank leaf own active owner < depth) :
    follow (leaf.map Level.pruned) depth (owner.map Level.pruned) active ops done =
      follow leaf depth owner active ops done := by
  induction depth generalizing own owner active done ops with
  | zero => exact absurd hrank (Nat.not_lt_zero _)
  | succ depth ihd =>
    have hvisit (op : Op) (hop : op ∈ ops) := visit_pruned hw hfits hop hrank ihd
    rw [follow_succ, follow_succ]
    induction ops generalizing done with
    | nil => rfl
    | cons op ops ih =>
      rw [List.foldlM_cons, List.foldlM_cons, hvisit op List.mem_cons_self]
      exact congrArg (visit leaf (follow leaf depth) owner active done op >>= ·)
        (funext fun done => ih hfits.tail fun op hop => hvisit op (List.mem_cons_of_mem _ hop))

end

/-! ## Templates without such invocations -/

theorem Template.rootOps_pruned (t : Template) : t.pruned.rootOps = t.rootOps := by
  simp only [Template.rootOps, Template.pruned, List.getLast?_map]
  cases t.ancestors.getLast? with
  | none => rfl
  | some l => rfl

theorem Template.rootOwner_pruned (t : Template) : t.pruned.rootOwner = t.rootOwner.map Level.pruned := by
  simp only [Template.rootOwner, Template.pruned, List.getLast?_map]
  cases t.ancestors.getLast? with
  | none => rfl
  | some l => rfl

/-- the check finds the same without invocations of contents that are empty -/
theorem Template.recursiveElement?_pruned {t : Template} (hw : WellBound t.chain) (hfits : Fits t.chain none t.start) :
    t.pruned.recursiveElement? = t.recursiveElement? := by
  have hchain : t.pruned.chain = t.chain.map Level.pruned := rfl
  have hbound : t.pruned.depthBound = t.depthBound := by
    have hlength : (fun l : Level => l.elements.length) ∘ Level.pruned = fun l => l.elements.length := by
      funext l
      simp [Level.pruned]
    simp only [Template.depthBound, hchain, List.length_map, List.length_flatMap, List.map_map, hlength]
  have hfollow : follow (t.chain.map Level.pruned) (t.depthBound + 1) (t.rootOwner.map Level.pruned) [] t.rootOps [] =
      follow t.chain (t.depthBound + 1) t.rootOwner [] t.rootOps [] :=
    follow_pruned hw hfits (Nat.lt_succ_of_le t.rank_start_le)
  unfold Template.recursiveElement?
  rw [hchain, hbound, t.rootOps_pruned, t.rootOwner_pruned, hfollow]

/-! ## Rendering -/

section

variable {leaf owner : List Level} {ops : List Op} {text : String}

/-- an invocation of an empty content writes nothing -/
theorem writes_filter {level : List Level} {name : String}
    (ht : target? leaf owner (.invokeContent name) = some (level, [])) (h : Writes leaf owner ops text) :
    Writes leaf owner (ops.filter (· ≠ .invokeContent name)) text := by
  induction ops generalizing text with
  | nil => exact h
  | cons op ops ih =>
    by_cases hop : op = .invokeContent name
    · rw [List.filter_cons_of_neg (by simpa using hop)]
      subst hop
      cases h with
      | invoke ht' hs h =>
        cases ht.symm.trans ht'
        cases hs
        rw [String.empty_append]
        exact ih h
    · rw [List.filter_cons_of_pos (by simpa using hop)]
      cases h with
      | literal text h => exact .literal text (ih h)
      | classes names h => exact .classes names (ih h)
      | invoke ht hs h => exact .invoke ht hs (ih h)

/-- operations write the same for pruned levels as for the levels -/
theorem writes_pruned (h : Writes leaf owner ops text) :
    Writes (leaf.map Level.pruned) (owner.map Level.pruned) ops text := by
  induction h with
  | done => exact .done
  | literal text _ ih => exact .literal text ih
  | classes names _ ih =>
    have hprefixes : leafPrefixes (leaf.map Level.pruned) = leafPrefixes leaf := by
      cases leaf with
      | nil => rfl
      | cons l ls => rfl
    rw [← hprefixes]
    exact .classes names ih
  | @invoke owner op ops s t place ht _ _ ihs ih =>
    cases htags : op.tagsOf with
    | none => exact .invoke ((target?_pruned htags).trans (congrArg _ ht)) ihs ih
    | some name =>
      cases op.eq_invokeElement htags
      obtain ⟨level, b, hb, rfl⟩ := target?_invokeElement.1 ht
      have hb' := findBody_pruned_eq_some hb
      refine .invoke (target?_invokeElement.2 ⟨_, _, hb', rfl⟩) ?_ ih
      by_cases hempty : b.content = []
      · have hcontent : target? (leaf.map Level.pruned) (level.map Level.pruned) (.invokeContent name) =
            some (level.map Level.pruned, []) := by
          simp [target?, hb', content_pruned, hempty]
        rw [Body.pruned, if_pos hempty]
        exact writes_ofList.2 (writes_filter hcontent ihs)
      · rwa [Body.pruned, if_neg hempty]

end

/-- templates that are the same but for invocations of empty contents are rendered to the same markup -/
theorem render_of_pruned {t t' : Template} {text text' : String} (h : t'.pruned = t.pruned) (ht : t.render = .ok text)
    (ht' : t'.render = .ok text') : text' = text := by
  have hwrites {t : Template} {text : String} (ht : t.render = .ok text) :
      Writes t.pruned.chain t.pruned.rootOwner t.pruned.rootOps text := by
    rw [t.rootOwner_pruned, t.rootOps_pruned]
    exact writes_pruned (writes_of_run ht)
  exact (h ▸ hwrites ht').unique (hwrites ht)

/-! ## Extending -/

/-- the surroundings of a document on top of the pruned levels -/
def Surroundings.pruned (env : Surroundings) : Surroundings := { env with ancestors := env.ancestors.map Level.pruned }

theorem resolveSlots_pruned (ls : List Level) (attributes : Attributes) (name : Option String) :
    resolveSlots (ls.map Level.pruned) attributes name = resolveSlots ls attributes name := by
  have hslots (name : String) : findSlots name (ls.map Level.pruned) = findSlots name ls := List.findSome?_map
  simp only [resolveSlots, inheritedSlots, hslots, List.isEmpty_map]

section

variable (env : Surroundings)

theorem resolveTag_pruned (e : Element) : resolveTag env.pruned e = resolveTag env e := by
  have htag (name : String) : findTag name env.pruned.ancestors = findTag name env.ancestors := List.findSome?_map
  simp only [resolveTag, htag]

theorem compileElement_pruned (expand : Scope → List Node → Walk Scope) (e : Element) (content : Scope → Walk Scope)
    (scope : Scope) : compileElement env.pruned expand e content scope = compileElement env expand e content scope := by
  have hslots (attributes : Attributes) (name : Option String) :
      resolveSlots env.pruned.ancestors attributes name = resolveSlots env.ancestors attributes name :=
    resolveSlots_pruned env.ancestors attributes name
  unfold compileElement namedElement anonymousElement namedSlots
  simp only [resolveTag_pruned, hslots]
  rfl

theorem compileSuperCall_pruned (call : SuperCall) (scope : Scope) :
    compileSuperCall env.pruned call scope = compileSuperCall env call scope := by
  have hbody (name : String) : (findBody name env.pruned.ancestors).isNone = (findBody name env.ancestors).isNone := by
    simp [Surroundings.pruned, findBody_pruned]
  have hancestors : env.pruned.ancestors.isEmpty = env.ancestors.isEmpty := List.isEmpty_map
  unfold compileSuperCall
  simp only [hbody, hancestors]

theorem compileNodes_pruned (expand : Scope → List Node → Walk Scope) (scope : Scope) (nodes : List Node) :
    compileNodes env.pruned expand scope nodes = compileNodes env expand scope nodes := by
  induction nodes using nodes_induction generalizing scope with
  | nil => rfl
  | text value ns ih => simp only [compileNodes, compileNode, ih]
  | comment value multiline ns ih => simp only [compileNodes, compileNode, ih]
  | superCall call ns ih => simp only [compileNodes, compileNode, compileSuperCall_pruned, ih]
  | element e ns ihc ih => simp only [compileNodes, compileNode_element, compileElement_pruned, ihc, ih]

/-- what is compiled on top of pruned levels is what is compiled on top of the levels -/
theorem walk_pruned (depth : Nat) (scope : Scope) (nodes : List Node) :
    walk env.pruned depth scope nodes = walk env depth scope nodes := by
  induction depth generalizing scope nodes with
  | zero => exact compileNodes_pruned env _ scope nodes
  | succ depth ih =>
    have hexpand : walk env.pruned depth = walk env depth := funext fun scope => funext (ih scope)
    simp only [walk, hexpand, compileNodes_pruned]

end

theorem body_pruned_pruned (name : String) (b : Body) : (b.pruned name).pruned name = b.pruned name := by
  by_cases hempty : b.content = []
  · have hpruned : b.pruned name =
        { b with render := (Buffer.ofList (b.render.filter (· ≠ .invokeContent name))).toList } := by
      rw [Body.pruned, if_pos hempty]
    rw [Body.pruned, if_pos ((content_pruned name b).trans hempty), hpruned, ofList_filter (by simp), List.filter_filter]
    simp
  · rw [Body.pruned, if_neg (by rwa [content_pruned])]

theorem Level.pruned_pruned (l : Level) : l.pruned.pruned = l.pruned := by
  simp [Level.pruned, body_pruned_pruned, Function.comp_def]

/-- a document makes the same on top of a template without invocations of empty contents, but for such invocations -/
theorem draft_pruned (d : Document) (parent : Option Template) :
    (draft d (parent.map Template.pruned)).map Template.pruned = (draft d parent).map Template.pruned := by
  have hlevels : levelsOf (parent.map Template.pruned) = (levelsOf parent).map Level.pruned := by
    cases parent with
    | none => rfl
    | some t => rfl
  have hprefixes : ownPrefixes d.blockNames ((levelsOf parent).map Level.pruned) ++
      leafPrefixes ((levelsOf parent).map Level.pruned) =
      ownPrefixes d.blockNames (levelsOf parent) ++ leafPrefixes (levelsOf parent) := by
    cases levelsOf parent with
    | nil => rfl
    | cons l ls => rfl
  have hsurroundings :
      d.surroundings ((levelsOf parent).map Level.pruned) = (d.surroundings (levelsOf parent)).pruned := by
    simp only [Document.surroundings, hprefixes, Surroundings.pruned]
  have hstart : d.start ((levelsOf parent).map Level.pruned) = d.start (levelsOf parent) := by
    simp only [Document.start, hprefixes]
  unfold draft
  simp only [hlevels, hprefixes, hstart, Document.walk, hsurroundings, walk_pruned]
  split
  · rfl
  · simp [Except.map, Template.pruned, assemble, Level.pruned_pruned]

/-! ## Chains -/

theorem exists_ok_of_map_eq {ε α β : Type} {f : α → β} {x x' : Except ε α} {a : α} (h : x'.map f = x.map f)
    (ha : x = .ok a) : ∃ a', x' = .ok a' ∧ f a' = f a := by
  subst ha
  cases x' with
  | error err => cases h
  | ok a' => exact ⟨a', rfl, Except.ok.inj h⟩

section

variable {ds ds' : List Document} {parent parent' : Option Template} (h : Compiled ds parent)
  (h' : Compiled ds' parent')
include h h'

/-- the check refuses the same templates, whether contents that are empty are invoked or not -/
theorem compile_of_draft_pruned {d d' : Document}
    (hdraft : (draft d' parent').map Template.pruned = (draft d parent).map Template.pruned) :
    (compile d'.block parent' d'.options).result.map Template.pruned =
      (compile d.block parent d.options).result.map Template.pruned := by
  have hcheck {ds : List Document} {parent : Option Template} (h : Compiled ds parent) {d : Document} {t : Template}
      (ht : draft d parent = .ok t) : t.pruned.recursiveElement? = t.recursiveElement? := by
    obtain ⟨_, -, hleaf⟩ := draft_reads h ht
    exact Template.recursiveElement?_pruned hleaf.wellBound hleaf.fits_start
  rw [compile_result, compile_result]
  cases hd : draft d parent with
  | error err =>
    cases hd' : draft d' parent' with
    | error err' =>
      rw [hd, hd'] at hdraft
      exact hdraft
    | ok t' =>
      obtain ⟨t, ht, -⟩ := exists_ok_of_map_eq hdraft.symm hd'
      cases hd.symm.trans ht
  | ok t =>
    obtain ⟨t', hd', htemplates⟩ := exists_ok_of_map_eq hdraft hd
    have hrecursive : t'.recursiveElement? = t.recursiveElement? := by
      rw [← hcheck h hd, ← hcheck h' hd', htemplates]
    simp only [hd', Except.bind, Template.check, hrecursive]
    split
    · rfl
    · exact congrArg Except.ok htemplates

end

/-- **Empty contents make no difference.** On top of templates that are the same but for invocations of empty contents,
the same documents compile, and make templates that are the same but for such invocations. -/
theorem compiled_of_pruned {ds ds' us : List Document} {t t' s : Template} (h : Compiled ds (some t))
    (h' : Compiled ds' (some t')) (heq : t'.pruned = t.pruned) (hs : Compiled (us ++ ds) (some s)) :
    ∃ s', Compiled (us ++ ds') (some s') ∧ s'.pruned = s.pruned := by
  induction us generalizing s with
  | nil =>
    cases h.unique hs
    exact ⟨t', h', heq⟩
  | cons u us ih =>
    cases hs with
    | @document _ parent _ _ hp hc =>
      cases parent with
      | none =>
        cases us with
        | nil => cases h.unique hp
        | cons v us => cases hp
      | some p =>
        obtain ⟨p', hp', heq'⟩ := ih hp
        have hdraft : (draft u (some p')).map Template.pruned = (draft u (some p)).map Template.pruned := by
          rw [← draft_pruned u (some p'), ← draft_pruned u (some p), Option.map_some, Option.map_some, heq']
        obtain ⟨s', hc', hsame⟩ := exists_ok_of_map_eq (compile_of_draft_pruned hp hp' hdraft) hc
        exact ⟨s', .document u hp' hc', hsame⟩

/-- the documents compile alike, and are rendered to the same markup -/
def RenderedAlike (ds ds' : List Document) : Prop :=
  ((∃ t, Compiled ds (some t)) ↔ ∃ t', Compiled ds' (some t')) ∧
    ∀ t t', Compiled ds (some t) → Compiled ds' (some t') → ∃ text, t.render = .ok text ∧ t'.render = .ok text

/-- documents that make the same but for invocations of empty contents are rendered alike, and so is all on top of them -/
theorem renderedAlike_of_pruned {ds : List Document} {d d' : Document}
    (h : ∀ parent, Compiled ds parent → (compile d'.block parent d'.options).result.map Template.pruned =
      (compile d.block parent d.options).result.map Template.pruned) (us : List Document) :
    RenderedAlike (us ++ d :: ds) (us ++ d' :: ds) := by
  have hother {d d' : Document} {s : Template}
      (h : ∀ parent, Compiled ds parent → (compile d'.block parent d'.options).result.map Template.pruned =
        (compile d.block parent d.options).result.map Template.pruned) (hs : Compiled (us ++ d :: ds) (some s)) :
      ∃ s', Compiled (us ++ d' :: ds) (some s') ∧ s'.pruned = s.pruned := by
    obtain ⟨_, hd⟩ := hs.of_append
    cases hd with
    | @document _ parent t _ hp hc =>
      obtain ⟨t', hc', hsame⟩ := exists_ok_of_map_eq (h parent hp) hc
      exact compiled_of_pruned (.document d hp hc) (.document d' hp hc') hsame hs
  constructor
  · constructor
    · rintro ⟨s, hs⟩
      obtain ⟨s', hs', -⟩ := hother h hs
      exact ⟨s', hs'⟩
    · rintro ⟨s, hs⟩
      obtain ⟨s', hs', -⟩ := hother (fun parent hp => (h parent hp).symm) hs
      exact ⟨s', hs'⟩
  · intro s s' hs hs'
    obtain ⟨_, hs'', heq⟩ := hother h hs
    cases hs'.unique hs''
    obtain ⟨text, htext⟩ := render_of_compiled hs
    obtain ⟨text', htext'⟩ := render_of_compiled hs'
    exact ⟨text, htext, render_of_pruned heq htext htext' ▸ htext'⟩

end BlockTemplates
