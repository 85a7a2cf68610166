/-
What is warned about. A walk that succeeds has warned once for each definition of a name that had been defined before, so
one time less than the name is defined, in the order in which the definitions were complete. After the walk the operations
of the top level tell whether the document has markup that is dropped because it extends another one; merged as they are,
they tell the same as its nodes: there is a text, a super call or an element without name, perhaps in what helpers return.

Main statements: the rules of `Keeps` and `keeps_walk` (a walk keeps the tally of its warnings), `onlyInvocations_pushAll`
and `Reads.topMarkup_iff` (operations and nodes tell the same) and `warnings_are_exact`.
-/
import BlockTemplates.Proofs.Reading.Chain

namespace BlockTemplates

open Html Markup Render

/-! ## Names that are repeated -/

/-- each occurrence of a name that has occurred before, for names of which the first one stands last -/
def repeats : List String → List String
  | [] => []
  | name :: names => if name ∈ names then name :: repeats names else repeats names

theorem count_repeats (name : String) (names : List String) :
    (repeats names).count name = names.count name - 1 := by
  induction names with
  | nil => rfl
  | cons n ns ih =>
    by_cases hn : n = name
    · subst hn
      by_cases hmem : n ∈ ns
      · have hpos : 0 < ns.count n := List.count_pos_iff.2 hmem
        simp only [repeats, if_pos hmem, List.count_cons_self, ih]
        omega
      · have hzero : ns.count n = 0 := List.count_eq_zero.2 hmem
        simp only [repeats, if_neg hmem, List.count_cons_self, ih, hzero]
    · have hcount : (n :: ns).count name = ns.count name := List.count_cons_of_ne hn
      rw [hcount, ← ih]
      by_cases hmem : n ∈ ns
      · rw [repeats, if_pos hmem, List.count_cons_of_ne hn]
      · rw [repeats, if_neg hmem]

/-! ## The tally of a walk -/

/-- the warnings reported so far are those about the names that were defined again -/
def Record.Tallied (r : Record) : Prop :=
  r.events.filter Event.isWarning = (repeats (r.elements.map Prod.fst)).map .duplicateElement

/-- a walk that succeeds keeps the tally -/
def Keeps {α : Type} (w : Walk α) : Prop := ∀ ⦃r a r'⦄, Runs w r a r' → r.Tallied → r'.Tallied

namespace Keeps

variable {α β : Type}

theorem pure (a : α) : Keeps (Pure.pure a) := by
  intro r b r' h hr
  rw [(runs_pure.1 h).2]
  exact hr

theorem bind {w : Walk α} {f : α → Walk β} (hw : Keeps w) (hf : ∀ a, Keeps (f a)) : Keeps (w >>= f) := by
  intro r b r' h hr
  obtain ⟨a, r₁, h₁, h₂⟩ := runs_bind.1 h
  exact hf a h₂ (hw h₁ hr)

theorem throw (e : CompileError) : Keeps (MonadExcept.throw e : Walk α) := fun _ _ _ h => absurd h not_runs_throw

theorem ofExcept (x : Except CompileError α) : Keeps (MonadExcept.ofExcept x : Walk α) := by
  cases x with
  | error e => exact .throw e
  | ok a => exact .pure a

theorem get : Keeps (MonadState.get : Walk Record) := by
  intro r a r' h hr
  rw [(runs_get.1 h).2]
  exact hr

theorem modify {f : Record → Record} (h : ∀ r, r.Tallied → (f r).Tallied) : Keeps (modify f : Walk Unit) := by
  intro r a r' hf hr
  rw [runs_modify.1 hf]
  exact h r hr

theorem report {event : Event} (h : event.isWarning = false) : Keeps (report event) := by
  apply Keeps.modify
  intro r hr
  unfold Record.Tallied
  rw [List.filter_cons_of_neg (by simp [h])]
  exact hr

end Keeps

section

variable {env : Surroundings} {e : Element}

/-- a definition is warned about if there is one of the same name -/
theorem keeps_define (name : String) (body : Body) : Keeps (define name body) := by
  intro r u r' h hr
  simp only [define, runs_bind, runs_get] at h
  obtain ⟨s, s', ⟨hs, hs'⟩, h⟩ := h
  rw [hs, hs'] at h
  have hdefined : (r.elements.lookup name).isSome = true ↔ name ∈ r.elements.map Prod.fst := by
    rw [List.lookup_isSome_iff, List.mem_map]
    simp only [beq_iff_eq, @eq_comm _ name]
  split at h
  · rename_i hsome
    rw [runs_bind] at h
    obtain ⟨_, r₂, hreport, h⟩ := h
    rw [runs_modify.1 h, runs_modify.1 hreport]
    unfold Record.Tallied
    rw [List.filter_cons_of_pos rfl, hr, List.map_cons, repeats, if_pos (hdefined.1 hsome), List.map_cons]
  · rename_i hnone
    rw [runs_modify.1 h]
    unfold Record.Tallied
    rw [List.map_cons, repeats, if_neg fun hmem => hnone (hdefined.2 hmem)]
    exact hr

theorem keeps_resolveTag : Keeps (resolveTag env e) := by
  have hnote (name tag : String) : Keeps (noteTag name tag) := by
    apply Keeps.modify
    intro r hr
    split
    · exact hr
    · exact hr
  unfold resolveTag
  split
  · exact .pure _
  · exact .bind (hnote _ _) fun _ => .pure _
  · exact .bind .get fun _ => .pure _

theorem keeps_namedSlots {name : String} {attributes : Option Attributes} : Keeps (namedSlots env name attributes) := by
  unfold namedSlots
  split
  · exact .pure _
  · split
    · exact .pure _
    · exact .bind (.ofExcept _) fun _ => .bind (.modify fun _ hr => hr) fun _ => .pure _

theorem keeps_namedOps {name : String} {tag : Option String} {slots : AttributeSlots} :
    Keeps (namedOps env e name tag slots) := by
  unfold namedOps
  split
  · exact .pure _
  · refine .bind (.report rfl) fun _ => .bind (.ofExcept _) fun _ => ?_
    split
    · exact .pure _
    · exact .pure _
    · exact .pure _

theorem keeps_expansion {tag : Option String} : Keeps (expansion env e tag) := by
  unfold expansion
  split
  · exact .throw _
  · split
    · exact .throw _
    · exact .bind (.report rfl) fun _ => .pure _

theorem keeps_compileSuperCall {call : SuperCall} {scope : Scope} : Keeps (compileSuperCall env call scope) := by
  unfold compileSuperCall
  split
  · exact .throw _
  · split
    · exact .throw _
    · split
      · exact .throw _
      · exact .pure _

theorem keeps_compileElement {expand : Scope → List Node → Walk Scope} {content : Scope → Walk Scope} {scope : Scope}
    (hcontent : ∀ inner, Keeps (content inner)) (hexpand : ∀ inner nodes, Keeps (expand inner nodes)) :
    Keeps (compileElement env expand e content scope) := by
  have hchildren (tag : Option String) (inner : Scope) : Keeps (childrenOf env expand e content tag inner) := by
    unfold childrenOf
    split
    · exact .bind keeps_expansion fun _ => hexpand inner _
    · exact hcontent inner
  rw [compileElement_eq]
  refine .bind keeps_resolveTag fun tag => ?_
  split
  · exact .bind keeps_namedSlots fun _ => .bind keeps_namedOps fun _ => .bind (hchildren tag _) fun _ =>
      .bind (keeps_define _ _) fun _ => .pure _
  · unfold anonymousElement
    split
    · exact hchildren tag scope
    · exact .bind (.ofExcept _) fun _ => .bind (.ofExcept _) fun _ => .bind (hchildren tag _) fun _ => .pure _

theorem keeps_compileNodes {expand : Scope → List Node → Walk Scope}
    (hexpand : ∀ inner nodes, Keeps (expand inner nodes)) (nodes : List Node) :
    ∀ scope, Keeps (compileNodes env expand scope nodes) := by
  induction nodes using nodes_induction with
  | nil => exact fun _ => .pure _
  | text value ns ih => exact fun _ => .bind (.pure _) ih
  | comment value multiline ns ih => exact fun _ => .bind (.pure _) ih
  | superCall call ns ih => exact fun _ => .bind keeps_compileSuperCall ih
  | element e ns ihc ih =>
    intro scope
    simp only [compileNodes, compileNode_element]
    exact .bind (keeps_compileElement ihc hexpand) ih

end

/-- a walk keeps the tally, however deep helpers are expanded -/
theorem keeps_walk (env : Surroundings) (depth : Nat) (scope : Scope) (nodes : List Node) :
    Keeps (walk env depth scope nodes) := by
  induction depth generalizing scope nodes with
  | zero => exact keeps_compileNodes (fun _ _ => .throw _) nodes scope
  | succ depth ih => exact keeps_compileNodes ih nodes scope

/-! ## Operations of the top level -/

/-- the invocation of an element, or nothing -/
def Render.Op.isQuiet : Op → Bool
  | .invokeElement _ => true
  | .literal text => text = ""
  | _ => false

/-- merging literals does not hide them -/
theorem Render.Buffer.onlyInvocations_push (b : Buffer) (op : Op) :
    (b.push op).onlyInvocations = (b.onlyInvocations && op.isQuiet) := by
  obtain ⟨ops⟩ := b
  cases op with
  | literal text =>
    by_cases ht : text = ""
    · simp [Buffer.push, Op.isQuiet, ht]
    · simp only [Buffer.push, Buffer.pushText, if_neg ht, Op.isQuiet, decide_eq_false ht, Bool.and_false]
      split
      · rfl
      · rfl
  | invokeElement name => simp [Buffer.push, Buffer.onlyInvocations, Op.isQuiet]
  | _ => simp [Buffer.push, Buffer.onlyInvocations, Op.isQuiet]

theorem Render.Buffer.onlyInvocations_pushAll (b : Buffer) (ops : List Op) :
    (b.pushAll ops).onlyInvocations = (b.onlyInvocations && ops.all Op.isQuiet) := by
  induction ops generalizing b with
  | nil => simp [Buffer.pushAll]
  | cons op ops ih =>
    have hstep : b.pushAll (op :: ops) = (b.push op).pushAll ops := rfl
    rw [hstep, ih, Buffer.onlyInvocations_push, List.all_cons, Bool.and_assoc]

/-! ## Nodes of the top level -/

/-- there is something to write among the nodes, or in what helpers without a name return for them -/
inductive TopMarkup (helpers : Registry) : List Node → Prop
  | text {value ns} : .text value ∈ ns → value ≠ "" → TopMarkup helpers ns
  | anonymous {e ns} : .element e ∈ ns → e.name = none → e.isHelper = false → TopMarkup helpers ns
  | superCall {call ns} : .superCall call ∈ ns → TopMarkup helpers ns
  | helper {e ns tag helper} : .element e ∈ ns → e.name = none → e.isHelper = true → e.tagName = some tag →
    helpers.find? tag = some helper → TopMarkup helpers ((helper e).getD []) → TopMarkup helpers ns

/-- a node is such, or it is a helper without a name that returns such nodes -/
def MarkupAt (helpers : Registry) : Node → Prop
  | .element e => e.name = none ∧ (e.isHelper = false ∨ e.isHelper = true ∧ ∃ tag helper, e.tagName = some tag ∧
    helpers.find? tag = some helper ∧ TopMarkup helpers ((helper e).getD []))
  | .text value => value ≠ ""
  | .comment _ _ => False
  | .superCall _ => True

section

variable {helpers : Registry} {n : Node} {ns : List Node}

theorem topMarkup_iff_exists : TopMarkup helpers ns ↔ ∃ n ∈ ns, MarkupAt helpers n := by
  constructor
  · intro h
    cases h with
    | text hmem hne => exact ⟨_, hmem, hne⟩
    | anonymous hmem hn hh => exact ⟨_, hmem, hn, .inl hh⟩
    | superCall hmem => exact ⟨_, hmem, trivial⟩
    | helper hmem hn hh ht hf hinner => exact ⟨_, hmem, hn, .inr ⟨hh, _, _, ht, hf, hinner⟩⟩
  · rintro ⟨n, hmem, h⟩
    cases n with
    | element e =>
      obtain ⟨hn, hh | ⟨hh, tag, helper, ht, hf, hinner⟩⟩ := h
      · exact .anonymous hmem hn hh
      · exact .helper hmem hn hh ht hf hinner
    | text value => exact .text hmem h
    | comment value multiline => exact h.elim
    | superCall call => exact .superCall hmem

theorem topMarkup_cons : TopMarkup helpers (n :: ns) ↔ MarkupAt helpers n ∨ TopMarkup helpers ns := by
  simp only [topMarkup_iff_exists, List.mem_cons, exists_eq_or_imp]

end

theorem escapeText_eq_empty {value : String} : escapeText value = "" ↔ value = "" := by
  have hentity (c : Char) : entity .text c ≠ [] := by
    unfold entity
    split
    all_goals simp
  have hchars : escapeChars .text value.toList = [] ↔ value.toList = [] := by
    rw [escapeChars, List.flatMap_eq_nil_iff, List.eq_nil_iff_forall_not_mem]
    simp only [hentity, imp_false]
  rw [escapeText, escape, String.ofList_eq_empty_iff, hchars, String.toList_eq_nil_iff]

/-- the operations of parts tell whether there is something to write at the top level of the nodes -/
theorem Reads.topMarkup_iff {ctx : Context} {within : Option String} {tags tags' : Tags} {nodes : List Node} {ps : Parts}
    (h : Reads ctx within tags nodes tags' ps) : ps.ops.all Op.isQuiet = false ↔ TopMarkup ctx.helpers nodes := by
  induction h with
  | done => simp [Parts.ops, topMarkup_iff_exists]
  | text value _ ih =>
    rw [topMarkup_cons, ← ih]
    simp only [MarkupAt, Parts.ops, Op.isQuiet, List.all_cons, Bool.and_eq_false_iff, decide_eq_false_iff_not,
      escapeText_eq_empty, ne_eq]
  | comment value multiline _ ih =>
    rw [topMarkup_cons, ← ih]
    simp only [MarkupAt, false_or]
  | superCall _ _ _ =>
    rw [topMarkup_cons]
    simp only [MarkupAt, Parts.ops, Op.isQuiet, List.all_cons, Bool.false_and, true_or]
  | named hn _ _ _ _ ih =>
    rw [topMarkup_cons, ← ih]
    simp only [MarkupAt, hn, reduceCtorEq, false_and, false_or, Parts.ops, Op.isQuiet, List.all_cons, Bool.true_and]
  | anonymous hn hh _ _ _ _ =>
    rw [topMarkup_cons]
    simp [MarkupAt, hn, hh, Parts.ops, Op.isQuiet, Occurrence.openingOps]
  | @spliced _ _ nodes _ _ _ _ e inner hn hh hi _ _ ihc ih =>
    simp only [Context.inner, hh, if_true, Option.map_eq_some_iff, Option.bind_eq_some_iff] at hi
    obtain ⟨helper, ⟨tag, ht, hf⟩, rfl⟩ := hi
    have helement : MarkupAt ctx.helpers (.element e) ↔ TopMarkup ctx.helpers ((helper e).getD []) := by
      simp [MarkupAt, hn, hh, ht, hf]
    rw [topMarkup_cons, helement, ← ihc, ← ih, Parts.ops_append, List.all_append, Bool.and_eq_false_iff]

/-! ## All warnings -/

/-- what is reported by compiling a document whose walk succeeds -/
theorem compile_events {d : Document} {parent : Option Template} {top : Scope} {record : Record}
    (h : Runs (d.walk (levelsOf parent)) (d.start (levelsOf parent)) top record) :
    (compile d.block parent d.options).events = record.events.reverse ++
      if !(levelsOf parent).isEmpty && !top.ops.onlyInvocations then [.topLevelIgnored (",".intercalate d.blockNames)]
      else [] := by
  unfold compile
  dsimp only
  split
  · rename_i hrun
    cases hrun.symm.trans h
  · rename_i hrun
    cases hrun.symm.trans h
    rfl

/-- **Warnings are exact.** A document whose walk succeeds reads as parts, and compiling it warns once less about a name
than the parts define it; after that, and only if the document extends another one and has markup at its top level, or in
what helpers without a name return there, comes one warning that such markup is ignored. -/
theorem warnings_are_exact {d : Document} {parent : Option Template} {t : Template} (h : draft d parent = .ok t) :
    ∃ tags parts, ∃ duplicates : List String, ∃ ignored : Bool,
      Reads (d.surroundings (levelsOf parent)).context none [] d.block.content tags parts ∧
        (compile d.block parent d.options).events.filter Event.isWarning =
          duplicates.map .duplicateElement ++
            (if ignored then [.topLevelIgnored (",".intercalate d.blockNames)] else []) ∧
        (∀ name, duplicates.count name = (parts.definitions.map Prod.fst).count name - 1) ∧
        (ignored = true ↔ parent ≠ none ∧ TopMarkup d.options.helpers d.block.content) := by
  obtain ⟨top, record, hrun, -⟩ := draft_eq_ok h
  obtain ⟨parts, hreads, htop, hgrown, -⟩ := walk_reads hrun
  have htally : record.Tallied := keeps_walk _ _ _ _ hrun rfl
  have helements : record.elements.map Prod.fst = (parts.definitions.map Prod.fst).reverse := by
    rw [hgrown.elements]
    simp [Document.start, Parts.bodies, Function.comp_def]
  have honly : top.ops.onlyInvocations = parts.ops.all Op.isQuiet := by
    rw [htop]
    exact (Buffer.onlyInvocations_pushAll _ _).trans (Bool.true_and _)
  refine ⟨record.tagNames, parts, (repeats (record.elements.map Prod.fst)).reverse,
    !(levelsOf parent).isEmpty && !top.ops.onlyInvocations, hreads, ?_, ?_, ?_⟩
  · rw [compile_events hrun, List.filter_append, List.filter_reverse, htally, List.map_reverse]
    congr 1
    split
    · rfl
    · rfl
  · intro name
    rw [List.count_reverse, count_repeats, helements, List.count_reverse]
  · rw [honly, levelsOf_isEmpty, Bool.and_eq_true, Bool.not_eq_true', Bool.not_eq_true', hreads.topMarkup_iff,
      Option.isNone_eq_false_iff, Option.isSome_iff_ne_none]
    exact Iff.rfl

/-- a name defined twice, the second time in a section, which has a text too -/
def hasty : Document where
  block := ⟨some "c", [.element ⟨false, some "p", some [some "x"], none, none⟩,
    .element ⟨true, some "section", none, none,
      some [.element ⟨false, some "p", some [some "x"], none, none⟩, .text "t"]⟩]⟩

theorem hasty_is_warned_about :
    ∃ base t, draft hasty (some base) = .ok t ∧
      (compile hasty.block (some base) hasty.options).events.filter Event.isWarning =
        [.duplicateElement "x", .topLevelIgnored "c"] ∧
      ∃ tags parts, ∃ duplicates : List String, ∃ ignored : Bool,
        Reads (hasty.surroundings (levelsOf (some base))).context none [] hasty.block.content tags parts ∧
          (compile hasty.block (some base) hasty.options).events.filter Event.isWarning =
            duplicates.map .duplicateElement ++
              (if ignored then [.topLevelIgnored (",".intercalate hasty.blockNames)] else []) ∧
          (∀ name, duplicates.count name = (parts.definitions.map Prod.fst).count name - 1) ∧
          (ignored = true ↔ some base ≠ none ∧ TopMarkup hasty.options.helpers hasty.block.content) := by
  obtain ⟨base, hbase⟩ : ∃ base, (compile ⟨some "b", []⟩ none {}).result = .ok base := ⟨_, rfl⟩
  obtain ⟨t, ht⟩ : ∃ t, draft hasty (some base) = .ok t := by
    cases hbase
    exact ⟨_, rfl⟩
  refine ⟨base, t, ht, ?_, warnings_are_exact ht⟩
  cases hbase
  rfl

end BlockTemplates
