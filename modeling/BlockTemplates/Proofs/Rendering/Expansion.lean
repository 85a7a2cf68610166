/-
Rendering is expanding. What a compiled template renders is what its documents expand to when they are read as trees: the
operations of a level stand for the parts of its reading, merged literals for the texts and tags they are made of, and
looking up a body for looking up a definition.

Main statements: `run_ofList` (collecting operations changes nothing), `expands_of_run` (what is rendered is an expansion)
and `render_iff_expansion`.
-/
import BlockTemplates.Proofs.Rendering.Recursion

namespace BlockTemplates

open Html Markup Render

/-! ## Collected operations -/

section

variable {leaf owner : List Level} {depth : Nat}

theorem run_literal_cons (text : String) (ops : List Op) :
    run leaf depth owner (.literal text :: ops) = (run leaf depth owner ops).map (text ++ ·) := run_cons ..

theorem run_concat_literal (ops : List Op) (text : String) :
    run leaf depth owner (ops ++ [.literal text]) = (run leaf depth owner ops).map (· ++ text) := by
  rw [run_append, run_literal_cons, run_nil]
  cases run leaf depth owner ops <;> simp [Except.bind, Except.map]

/-- collecting an operation adds what it does -/
theorem run_push (b : Buffer) (op : Op) :
    run leaf depth owner (b.push op).toList = run leaf depth owner (b.toList ++ [op]) := by
  cases op with
  | literal text =>
    change run leaf depth owner (b.pushText text).toList = _
    by_cases ht : text = ""
    · subst ht
      rw [Buffer.pushText_empty, run_concat_literal]
      cases run leaf depth owner b.toList <;> simp [Except.map]
    · by_cases hlast : ∃ last, b.toList.getLast? = some (.literal last)
      · obtain ⟨last, hlast⟩ := hlast
        obtain ⟨ops, hops⟩ := List.getLast?_eq_some_iff.1 hlast
        rw [Buffer.toList_pushText_literal ht hops, hops, run_concat_literal, run_concat_literal, run_concat_literal]
        cases run leaf depth owner ops <;> simp [Except.map, String.append_assoc]
      · rw [Buffer.toList_pushText ht fun last h => hlast ⟨last, h⟩]
  | _ => rw [Buffer.toList_push (by simp)]

theorem run_pushAll (b : Buffer) (ops : List Op) :
    run leaf depth owner (b.pushAll ops).toList = run leaf depth owner (b.toList ++ ops) := by
  induction ops generalizing b with
  | nil => rw [List.append_nil]; rfl
  | cons op ops ih =>
    calc run leaf depth owner ((b.push op).pushAll ops).toList
        = run leaf depth owner ((b.push op).toList ++ ops) := ih _
      _ = run leaf depth owner ((b.toList ++ [op]) ++ ops) := by rw [run_append, run_push, ← run_append]
      _ = run leaf depth owner (b.toList ++ op :: ops) := by rw [List.append_assoc, List.singleton_append]

/-- collecting operations changes nothing about what they do -/
theorem run_ofList (ops : List Op) : run leaf depth owner (Buffer.ofList ops).toList = run leaf depth owner ops :=
  run_pushAll {} ops

theorem writes_ofList {ops : List Op} {text : String} :
    Writes leaf owner (Buffer.ofList ops).toList text ↔ Writes leaf owner ops text := by
  simp only [writes_iff_run, run_ofList]

/-! ## Tags -/

theorem run_slotOps (classNames : List String) (slot : String × Option String) :
    run leaf depth owner (slotOps classNames slot) = .ok (Occurrence.slotText (leafPrefixes leaf) classNames slot) := by
  unfold slotOps Occurrence.slotText
  dsimp only
  split
  · simp only [run_cons, run_nil, write, Except.bind, Except.map]
    simp [String.append_assoc]
  · simp only [run_cons, run_nil, write, Except.bind, Except.map]
    simp [String.append_assoc]

theorem run_slots (classNames : List String) (pairs : List (String × Option String)) :
    run leaf depth owner (pairs.flatMap (slotOps classNames)) =
      .ok (String.join (pairs.map (Occurrence.slotText (leafPrefixes leaf) classNames))) := by
  induction pairs with
  | nil => rw [List.flatMap_nil, run_nil]; rfl
  | cons slot pairs ih =>
    rw [List.flatMap_cons, run_append, run_slotOps, ih, List.map_cons, String.join_cons]
    rfl

theorem run_attributeOps (slots : AttributeSlots) (classNames : List String) :
    run leaf depth owner (attributeOps slots classNames) =
      .ok (Occurrence.attributeText (leafPrefixes leaf) classNames slots) := by
  unfold attributeOps Occurrence.attributeText
  rw [run_append, run_slots]
  split
  · simp only [run_cons, run_nil, write, Except.bind, Except.map]
    simp [String.append_assoc]
  · simp [run_nil, Except.bind, Except.map]

theorem run_openingOps (o : Occurrence) :
    run leaf depth owner o.openingOps = .ok (o.opening (leafPrefixes leaf)) := by
  unfold Occurrence.openingOps Occurrence.opening
  rw [run_literal_cons, run_append, run_attributeOps, run_literal_cons, run_nil]
  simp [Except.bind, Except.map, String.append_assoc]

theorem run_closingOps (o : Occurrence) : run leaf depth owner o.closingOps = .ok o.closing := by
  unfold Occurrence.closingOps Occurrence.closing
  split
  · simp [closingTag, run_literal_cons, run_nil, Except.map]
  · rw [run_nil]

/-- what is written around the content of an element, where there is any to invoke -/
theorem around_of_run {o : Occurrence} {name text : String} (h : run leaf depth owner (o.renderOps name) = .ok text) :
    (∃ content, write leaf owner (invoked leaf depth) (.invokeContent name) = .ok content ∧
        text = o.around (leafPrefixes leaf) content) ∨
      (o.element.isHelper = false ∧ o.element.content.getD [] = [] ∧ text = o.around (leafPrefixes leaf) "") := by
  unfold Occurrence.renderOps at h
  unfold Occurrence.around
  cases hh : o.element.isHelper with
  | true =>
    simp only [hh, if_true] at h ⊢
    obtain ⟨s, t, hs, ht, rfl⟩ := run_cons_eq_ok.1 h
    rw [run_nil] at ht
    cases ht
    exact .inl ⟨s, hs, by simp⟩
  | false =>
    simp only [hh, Bool.false_eq_true, if_false] at h ⊢
    obtain ⟨_, closing, hopened, hclosing, rfl⟩ := run_append_eq_ok.1 h
    obtain ⟨opening, content, hopening, hcontent, rfl⟩ := run_append_eq_ok.1 hopened
    rw [run_openingOps] at hopening
    rw [run_closingOps] at hclosing
    cases hopening
    cases hclosing
    split at hcontent
    · rename_i hempty
      rw [run_nil] at hcontent
      cases hcontent
      exact .inr ⟨trivial, List.isEmpty_iff.1 hempty, rfl⟩
    · obtain ⟨s, t, hs, ht, rfl⟩ := run_cons_eq_ok.1 hcontent
      rw [run_nil] at ht
      cases ht
      exact .inl ⟨s, hs, by simp⟩

end

/-! ## Definitions without content -/

/-- an element that is not a helper and is written without content has none -/
def Definition.Tidy (d : Definition) : Prop :=
  d.occurrence.element.isHelper = false → d.occurrence.element.content.getD [] = [] → d.children = .done

theorem Reads.tidy {ctx : Context} {within : Option String} {tags tags' : Tags} {nodes : List Node} {ps : Parts}
    (h : Reads ctx within tags nodes tags' ps) : ∀ p ∈ ps.definitions, p.2.Tidy := by
  induction h with
  | done => simp [Parts.definitions]
  | text value _ ih => exact ih
  | comment value multiline _ ih => exact ih
  | superCall _ _ ih => exact ih
  | @named _ _ _ _ _ _ _ e name inner hn hi hc _ ihc ih =>
    intro p hp
    rcases List.mem_append.1 hp with hp | hp
    · exact ihc p hp
    · rcases List.mem_cons.1 hp with rfl | hp
      · intro hh he
        dsimp only at hh he
        simp only [Context.inner, hh, Bool.false_eq_true, if_false, he, Option.some.injEq] at hi
        subst hi
        cases hc
        rfl
      · exact ih p hp
  | anonymous _ _ _ _ ihc ih =>
    intro p hp
    rcases List.mem_append.1 hp with hp | hp
    · exact ihc p hp
    · exact ih p hp
  | spliced _ _ _ _ _ ihc ih =>
    intro p hp
    rw [Parts.definitions_append] at hp
    rcases List.mem_append.1 hp with hp | hp
    · exact ihc p hp
    · exact ih p hp

theorem ReadsAll.tidy {ds : List Document} {rs level : List Reading} {name : String} {d : Definition}
    (h : ReadsAll ds rs) (hd : findDefinition name rs = some (level, d)) : d.Tidy := by
  induction h with
  | none => simp [findDefinition] at hd
  | document _ hreads ih =>
    unfold findDefinition at hd
    split at hd
    · rename_i d' hdef
      cases hd
      exact hreads.tidy _ (Reading.mem_of_definition? hdef)
    · exact ih hd

/-! ## Expanding -/

section

variable {ds : List Document} {rs : List Reading} {leaf : List Level} (hreads : ReadsAll ds rs)
  (hleaf : Realised rs leaf)
include hreads hleaf

/-- what the operations of parts write is what the parts expand to -/
theorem expands_of_run {depth : Nat} {rs' : List Reading} {owner : List Level} {ps : Parts} {text : String}
    (howner : Realised rs' owner) (h : run leaf depth owner ps.ops = .ok text) :
    Expands rs (leafPrefixes leaf) rs' ps text := by
  -- content is written less deep than the element or the super call that it belongs to
  induction depth using Nat.strongRecOn generalizing rs' owner ps text with
  | ind depth ihd =>
    induction ps generalizing text with
    | done =>
      simp only [Parts.ops, run_nil, Except.ok.injEq] at h
      exact h ▸ .done
    | text value rest ih =>
      obtain ⟨s, t, hs, ht, rfl⟩ := run_cons_eq_ok.1 h
      cases hs
      exact .text value (ih ht)
    | anonymous o children rest ihc ih =>
      obtain ⟨_, t, helement, ht, rfl⟩ := run_append_eq_ok.1 h
      obtain ⟨_, closing, hopened, hclosing, rfl⟩ := run_append_eq_ok.1 helement
      obtain ⟨opening, content, hopening, hcontent, rfl⟩ := run_append_eq_ok.1 hopened
      rw [run_openingOps] at hopening
      rw [run_closingOps] at hclosing
      cases hopening
      cases hclosing
      exact .anonymous (ihc hcontent) (ih ht)
    | named name o children rest _ ih =>
      obtain ⟨s, t, hs, ht, rfl⟩ := run_cons_eq_ok.1 h
      rcases hleaf.findBody name with ⟨hnone, -⟩ | ⟨r, rs'', l, ls, d, hsome, hdef, -, hl, hls⟩
      · simp [write, target?, hnone] at hs
      · have htags : target? leaf owner (.invokeElement name) = some (l :: ls, (d.body name).render) := by
          simp [target?, hsome]
        have hcontents : target? leaf (l :: ls) (.invokeContent name) = some (l :: ls, (d.body name).content) := by
          simp [target?, hsome]
        obtain ⟨k, rfl, hk⟩ := exists_run_of_write htags hs
        rw [Definition.body, run_ofList] at hk
        rcases around_of_run hk with ⟨content, hcontent, rfl⟩ | ⟨hh, he, rfl⟩
        · obtain ⟨j, rfl, hj⟩ := exists_run_of_write hcontents hcontent
          rw [Definition.body, run_ofList] at hj
          exact .named hdef (ihd j (by omega) (.cons hl hls) hj) (ih ht)
        · refine .named hdef ?_ (ih ht)
          rw [hreads.tidy hdef hh he]
          exact .done
    | superCall target rest ih =>
      obtain ⟨s, t, hs, ht, rfl⟩ := run_cons_eq_ok.1 h
      rcases howner.tail.findBody target with ⟨hnone, -⟩ | ⟨r, rs'', l, ls, d, hsome, hdef, -, hl, hls⟩
      · simp [write, target?, hnone] at hs
      · have hcontents : target? leaf owner (.superContent target) = some (l :: ls, (d.body target).content) := by
          simp [target?, hsome]
        obtain ⟨k, rfl, hk⟩ := exists_run_of_write hcontents hs
        rw [Definition.body, run_ofList] at hk
        exact .superCall hdef (ihd k (Nat.lt_succ_self k) (.cons hl hls) hk) (ih ht)

end

theorem expansion_of_render {ds : List Document} {t : Template} {text : String} (h : Compiled ds (some t))
    (hrender : t.render = .ok text) : Expansion ds text := by
  obtain ⟨rs, hreads, hleaf⟩ := compiled_reads h
  change Realised rs t.chain at hleaf
  rcases hleaf.getLast? with ⟨-, hnone⟩ | ⟨root, l, hroot, hl, hr⟩
  · simp [Template.chain] at hnone
  · obtain ⟨howner, hops⟩ := t.rootOwner_eq hl
    unfold Template.render at hrender
    rw [howner, hops, hr.root, List.isEmpty_nil, if_pos rfl, run_ofList] at hrender
    have hexpands := expands_of_run hreads hleaf (.cons hr .nil) hrender
    cases hleaf with
    | @cons leaf rs _ _ hfirst _ =>
      refine ⟨leaf, rs, root, hreads, hroot, ?_⟩
      rwa [leafPrefixes, Template.chain, List.head?_cons, Option.map_some, Option.getD_some, hfirst.prefixes] at hexpands

/-- **Rendering is expanding.** The last template of any chain of documents that compile is rendered, and the markup is
what the documents expand to, which is nothing else. -/
theorem render_iff_expansion {ds : List Document} {t : Template} (h : Compiled ds (some t)) :
    ∃ text, t.render = .ok text ∧ ∀ text', Expansion ds text' ↔ text' = text := by
  obtain ⟨rs, hreads, hleaf⟩ := compiled_reads h
  have hacyclic := recursiveElement?_of_compiled h
  obtain ⟨text, htext⟩ := Template.render_of_check hleaf.wellBound (Realised.fits_start hleaf) hacyclic
  have hexpansion := expansion_of_render h htext
  refine ⟨text, htext, fun text' => ⟨fun h' => h'.unique hexpansion, ?_⟩⟩
  rintro rfl
  exact hexpansion

/-- a paragraph with a name -/
def greeting : Document where
  block := ⟨some "b", [.element ⟨false, some "p", some [some "greeting"], none, some [.text "hello"]⟩]⟩

/-- more after its content -/
def greetingAgain : Document where
  block := ⟨some "c", [.element ⟨false, none, some [some "greeting"], none, some [.superCall {}, .text " & again"]⟩]⟩

theorem greetingAgain_expands :
    ∃ t, Compiled [greetingAgain, greeting] (some t) ∧
      t.render = .ok "<p class=\"c__greeting b__greeting\">hello &amp; again</p>" ∧
      Expansion [greetingAgain, greeting] "<p class=\"c__greeting b__greeting\">hello &amp; again</p>" := by
  obtain ⟨base, hbase⟩ : ∃ base, (compile greeting.block none greeting.options).result = .ok base := ⟨_, rfl⟩
  obtain ⟨t, ht, hrender⟩ : ∃ t, (compile greetingAgain.block (some base) greetingAgain.options).result = .ok t ∧
      t.render = .ok "<p class=\"c__greeting b__greeting\">hello &amp; again</p>" := by
    cases hbase
    exact ⟨_, rfl, rfl⟩
  have hcompiled : Compiled [greetingAgain, greeting] (some t) := .document _ (.document _ .none hbase) ht
  obtain ⟨text, htext, hexpansion⟩ := render_iff_expansion hcompiled
  cases hrender.symm.trans htext
  exact ⟨t, hcompiled, hrender, (hexpansion _).2 rfl⟩

end BlockTemplates
