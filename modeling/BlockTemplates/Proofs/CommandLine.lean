/-
Runs of the command line. The files are read, parsed and compiled in their order, each on top of the one before it, and
only the last one is treated in a way of its own: it is given the block names, or its tree is printed and it is not
compiled. A run goes through the files that succeed and ends at the first one that does not; nothing is written before
the last file has succeeded, and then nothing can fail any more.

All of this is so with whatever the program is built with, as long as that does what its documentation says
(`Libraries.Documented`): arguments that are understood name a file, a failure is reported from what was being done and
its cause, and what is printed of a value is a JSON text of the value. How arguments are understood, and how JSON is laid
out, makes no difference.

Main statements: `Failure.report_injective` (a failure can be read off its report), `Built.runs` (a run goes through what
succeeds), `Refuses.runs` (and ends at what does not) and `run_all_or_nothing`.
-/
import BlockTemplates.CommandLine
import BlockTemplates.Markup.Equality
import BlockTemplates.Proofs.Faults.Messages
import BlockTemplates.Proofs.Json.Text
import BlockTemplates.Proofs.Layout.Parsed
import BlockTemplates.Proofs.Rendering.Recursion
import Mathlib.Data.List.Induction

namespace BlockTemplates.CommandLine

open Markup Source Text

/-! ## What the libraries are relied on for -/

/-- the libraries do what their documentation says -/
structure Libraries.Documented (lib : Libraries) : Prop where
  /-- the files are required arguments -/
  files : ∀ {args a}, lib.request args = .run a → a.files ≠ []
  /-- the context of an error stands first, and its cause under a heading -/
  report : ∀ context cause, lib.report context cause = CommandLine.report context cause
  /-- the printer writes JSON; trees hold no numbers, so that nothing is asked of these -/
  pretty : ∀ j : Json, j.Numberless → j.IsText (lib.pretty j)

theorem files_of_requestFrom {args : List String} {a b : Arguments} (h : requestFrom a args = .run b) :
    b.files ≠ [] := by
  fun_induction requestFrom a args with
  | _ => grind [misuse]

theorem own_documented : Libraries.own.Documented where
  files h := files_of_requestFrom h
  report _ _ := rfl
  pretty _ h := Json.pretty_isText h

/-! ## Reports -/

/-- a character of a report and how it is written there -/
def IndentedItem (c : Char) (w : List Char) : Prop := w = if c = '\n' then "\n    ".toList else [c]

theorem IndentedItem.unique {c c' : Char} {w w' r r' : List Char} (h : IndentedItem c w) (h' : IndentedItem c' w')
    (heq : w ++ r = w' ++ r') : c = c' ∧ r = r' := by
  subst h h'
  by_cases hc : c = '\n'
  · by_cases hc' : c' = '\n'
    · simpa [hc, hc'] using heq
    · simp [hc, hc', eq_comm] at heq
  · by_cases hc' : c' = '\n'
    · simp [hc, hc'] at heq
    · simpa [hc, hc'] using heq

theorem indentedItem_nil (c : Char) : ¬ IndentedItem c [] := by
  unfold IndentedItem
  split <;> simp

theorem indented_injective {s t : String} (h : indented s = indented t) : s = t := by
  have hchar (c : Char) : IndentedItem c (if c = '\n' then "\n    ".toList else [c]) := rfl
  have htext := List.append_cancel_left (String.ofList_injective h)
  exact String.toList_inj.1 (Items.unique_of_end IndentedItem.unique indentedItem_nil (items_flatMap hchar s.toList)
    (items_flatMap hchar t.toList) htext)

theorem report_cause {context cause cause' : String} (h : report context cause = report context cause') :
    cause = cause' :=
  indented_injective (name_unique h)

/-- what was done with which file, and why it failed -/
theorem report_unique {word file file' cause cause' : String}
    (h : report (word ++ quoted file) cause = report (word ++ quoted file') cause') : file = file' ∧ cause = cause' := by
  have htext := congrArg String.toList h
  simp only [report, String.toList_append, List.append_assoc, List.append_cancel_left_eq] at htext
  obtain ⟨rfl, -⟩ := quoted_unique htext
  exact ⟨rfl, report_cause h⟩

/-- the words for what was being done -/
def Failure.step : Failure → String
  | .reading _ _ => "reading "
  | .parsing _ _ => "parsing "
  | .compiling _ _ => "compiling "
  | .rendering _ => "rendering"

theorem Failure.step_prefix (f : Failure) (r : List Char) : f.step.toList <+: f.context.toList ++ r := by
  have hfile (word file : String) : word.toList <+: (word ++ quoted file).toList ++ r := by
    rw [String.toList_append, List.append_assoc]
    exact List.prefix_append _ _
  cases f with
  | rendering => exact List.prefix_append _ _
  | _ => exact hfile _ _

def steps : List String := ["reading ", "parsing ", "compiling ", "rendering"]

theorem steps_apart : steps.Pairwise Apart := by decide +kernel

theorem Failure.step_unique {f f' : Failure} (h : report f.context f.cause = report f'.context f'.cause) :
    f.step = f'.step := by
  have hmem (f : Failure) : f.step ∈ steps := by
    cases f <;> simp [step, steps]
  have htext := congrArg String.toList h
  simp only [report, String.toList_append, List.append_assoc, List.append_cancel_left_eq] at htext
  exact front_unique id steps_apart (hmem f) (hmem f') (f.step_prefix _) (htext ▸ f'.step_prefix _)

theorem Failure.report_injective {f f' : Failure} (h : report f.context f.cause = report f'.context f'.cause) :
    f = f' := by
  have hstep := step_unique h
  cases f with
  | reading file cause =>
    cases f' with
    | reading file' cause' =>
      obtain ⟨rfl, rfl⟩ := report_unique h
      rfl
    | _ => simp [step] at hstep
  | parsing file e =>
    cases f' with
    | parsing file' e' =>
      obtain ⟨rfl, he⟩ := report_unique h
      rw [ParseError.message_injective he]
    | _ => simp [step] at hstep
  | compiling file e =>
    cases f' with
    | compiling file' e' =>
      obtain ⟨rfl, he⟩ := report_unique h
      rw [CompileError.message_injective he]
    | _ => simp [step] at hstep
  | rendering e =>
    cases f' with
    | rendering e' => rw [RenderError.message_injective (report_cause h)]
    | _ => simp [step] at hstep

/-! ## What becomes of the files -/

/-- the file can be read and parsed -/
inductive Loads (system : System) (file : String) : Block → Prop
  | intro {bytes source block} : system.contents file = .ok bytes → String.fromUTF8? bytes = some source →
    parse source = .ok block → Loads system file block

/-- what the files make, one on top of the other, with the default options -/
inductive Built (system : System) : List String → Option Template → Prop
  | nothing : Built system [] none
  | file {files parent file block t} : Built system files parent → Loads system file block →
    (compile block parent {}).result = .ok t → Built system (files ++ [file]) (some t)

/-- why the file cannot be read or parsed -/
inductive Unloaded (system : System) (file : String) : Failure → Prop
  | unread {cause} : system.contents file = .error cause → Unloaded system file (.reading file cause)
  | encoding {bytes} : system.contents file = .ok bytes → String.fromUTF8? bytes = none →
    Unloaded system file (.reading file "stream did not contain valid UTF-8")
  | parsing {bytes source e} : system.contents file = .ok bytes → String.fromUTF8? bytes = some source →
    parse source = .error e → Unloaded system file (.parsing file e)

/-- the first step that fails for a file, which is compiled on top of `parent` if options are given for that -/
inductive Refuses (system : System) (parent : Option Template) (options : Option Options) (file : String) :
    Failure → Prop
  | unloaded {f} : Unloaded system file f → Refuses system parent options file f
  | compiling {block used e} : Loads system file block → options = some used →
    (compile block parent used).result = .error e → Refuses system parent options file (.compiling file e)

/-- the options that a file is compiled with, given the files after it; the last one may not be compiled at all -/
def Arguments.optionsFor (a : Arguments) (later : List String) : Option Options :=
  if later = [] then if a.dumpTree then none else some { blockNames := a.blockNames } else some {}

/-- the first step that fails is one of this file -/
def FailsAt (system : System) (a : Arguments) (before : List String) (file : String) (after : List String)
    (f : Failure) : Prop :=
  a.files = before ++ file :: after ∧
    ∃ parent, Built system before parent ∧ Refuses system parent (a.optionsFor after) file f

/-- what a run has in the end -/
inductive Product where
  | template (t : Template)
  | tree (block : Block)

/-- what is to be written, but for the last line end; a printed tree can be read off its text -/
def Product.IsWritten (lib : Libraries) (text : String) : Product → Prop
  | .template t => t.render = .ok text
  | .tree block => text = lib.pretty block.toJson ∧ ∀ j : Json, j.IsText text ↔ j = block.toJson

/-- all steps succeed -/
inductive Succeeds (system : System) (a : Arguments) : Product → Prop
  | template {before last parent block t} : a.files = before ++ [last] → a.dumpTree = false →
    Built system before parent → Loads system last block →
    (compile block parent { blockNames := a.blockNames }).result = .ok t → Succeeds system a (.template t)
  | tree {before last parent block} : a.files = before ++ [last] → a.dumpTree = true →
    Built system before parent → Loads system last block → Succeeds system a (.tree block)

/-- another system has the same variable and the same contents of the files -/
def System.AgreesOn (system system' : System) (files : List String) : Prop :=
  system'.traceVariable = system.traceVariable ∧ ∀ file ∈ files, system'.contents file = system.contents file

/-! ## One file -/

section

variable {lib : Libraries} {system system' : System} {a : Arguments} {p : Progress} {file : String}
  {files : List String} {block : Block} {f : Failure}

theorem System.AgreesOn.mono {files' : List String} (h : system.AgreesOn system' files)
    (hsub : ∀ file ∈ files', file ∈ files) : system.AgreesOn system' files' :=
  ⟨h.1, fun file hfile => h.2 file (hsub file hfile)⟩

theorem fromUTF8?_toUTF8 (s : String) : String.fromUTF8? s.toUTF8 = some s := by
  simp [String.fromUTF8?, String.fromUTF8, s.isValidUTF8]

theorem Loads.load (h : Loads system file block) : load system file = .ok block := by
  obtain ⟨hcontents, htext, hparse⟩ := h
  unfold CommandLine.load
  simp only [hcontents, htext, hparse]

theorem load_congr (h : system'.contents file = system.contents file) : load system' file = load system file := by
  unfold load
  rw [h]

theorem Unloaded.load (h : Unloaded system file f) : load system file = .error f := by
  unfold CommandLine.load
  cases h with
  | unread hcontents => simp only [hcontents]
  | encoding hcontents htext => simp only [hcontents, htext]
  | parsing hcontents htext hparse => simp only [hcontents, htext, hparse]

theorem loads_or_unloaded (system : System) (file : String) :
    (∃ block, Loads system file block) ∨ ∃ f, Unloaded system file f := by
  cases hcontents : system.contents file with
  | error cause => exact .inr ⟨_, .unread hcontents⟩
  | ok bytes =>
    cases htext : String.fromUTF8? bytes with
    | none => exact .inr ⟨_, .encoding hcontents htext⟩
    | some source =>
      cases hparse : parse source with
      | error e => exact .inr ⟨_, .parsing hcontents htext hparse⟩
      | ok block => exact .inl ⟨block, hcontents, htext, hparse⟩

/-- the progress with what was reported by compiling a file -/
def Progress.note (p : Progress) (lib : Libraries) (system : System) (c : Compilation) : Progress :=
  let p := p.decideTracing system
  { p with errors := p.errors ++ Event.log (p.tracing.getD false) c.events lib.origin? }

theorem decideTracing_congr (h : system'.traceVariable = system.traceVariable) :
    p.decideTracing system' = p.decideTracing system := by
  unfold Progress.decideTracing
  rw [h]

theorem decideTracing_template (p : Progress) (system : System) : (p.decideTracing system).template = p.template := by
  unfold Progress.decideTracing
  split
  · rfl
  · rfl

theorem note_congr (h : system'.traceVariable = system.traceVariable) (c : Compilation) :
    p.note lib system' c = p.note lib system c := by
  unfold Progress.note
  rw [decideTracing_congr h]

theorem start_congr (h : system'.traceVariable = system.traceVariable) {a' : Arguments} (ha : a'.trace = a.trace) :
    Progress.start system' a' = Progress.start system a := by
  unfold Progress.start
  rw [ha, decideTracing_congr h]

theorem start_template (system : System) (a : Arguments) : (Progress.start system a).template = none := by
  unfold Progress.start
  split
  · exact decideTracing_template _ system
  · rfl

theorem runFiles_unloaded (h : load system file = .error f) :
    runFiles lib system a p (file :: files) = (p.errors, .error f) := by
  rw [runFiles, h]

theorem runFiles_tree (h : load system file = .ok block) (ha : a.dumpTree = true) :
    runFiles lib system a p [file] = (p.errors, .ok (lib.pretty block.toJson ++ "\n")) := by
  rw [runFiles]
  simp only [h, ha, List.isEmpty_nil, Bool.and_self, if_true]

/-- a file that is compiled -/
theorem runFiles_compiled {options : Options} (h : load system file = .ok block)
    (ho : a.optionsFor files = some options) :
    runFiles lib system a p (file :: files) =
      match (compile block p.template options).result with
      | .error e => ((p.note lib system (compile block p.template options)).errors, .error (.compiling file e))
      | .ok t =>
        runFiles lib system a { p.note lib system (compile block p.template options) with template := some t } files := by
  unfold Arguments.optionsFor at ho
  have hkind : (files.isEmpty && a.dumpTree) = false ∧
      options = { blockNames := if files.isEmpty then a.blockNames else [] } := by
    cases files with
    | nil =>
      cases hd : a.dumpTree with
      | true => simp [hd] at ho
      | false => simpa [hd, eq_comm] using ho
    | cons file files => simpa [eq_comm] using ho
  obtain ⟨htree, rfl⟩ := hkind
  rw [runFiles, h]
  simp only [htree, Bool.false_eq_true, if_false, decideTracing_template]
  rfl

end

/-! ## Many files -/

section

variable {lib : Libraries} {system : System} {files : List String} {parent : Option Template}

/-- what is built comes from documents that compile one on top of the other -/
theorem Built.compiled (h : Built system files parent) : ∃ ds, Compiled ds parent := by
  induction h with
  | nothing => exact ⟨[], .none⟩
  | @file files parent file block t _ _ hc ih =>
    obtain ⟨ds, hds⟩ := ih
    exact ⟨⟨block, {}⟩ :: ds, .document ⟨block, {}⟩ hds hc⟩

/-- a run goes through files that succeed, whatever the files after them -/
theorem Built.runs (h : Built system files parent) (lib : Libraries) {p : Progress} (hp : p.template = none) :
    ∃ q : Progress, q.template = parent ∧ ∀ system', system.AgreesOn system' files → ∀ a rest, rest ≠ [] →
      runFiles lib system' a p (files ++ rest) = runFiles lib system' a q rest := by
  induction h with
  | nothing => exact ⟨p, hp, fun _ _ _ _ _ => rfl⟩
  | @file files parent file block t _ hload hc ih =>
    obtain ⟨q, rfl, hq⟩ := ih
    refine ⟨{ q.note lib system (compile block q.template {}) with template := some t }, rfl, ?_⟩
    intro system' hagrees a rest hrest
    have hload' : load system' file = .ok block := by
      rw [load_congr (hagrees.2 file (by simp)), hload.load]
    have hoptions : a.optionsFor rest = some {} := if_neg hrest
    rw [List.append_assoc, List.singleton_append, hq system' (hagrees.mono (by simp +contextual)) a _ (by simp),
      runFiles_compiled hload' hoptions, hc]
    dsimp only
    rw [note_congr hagrees.1]

/-- all files can be built upon, or one of them is the first to fail -/
theorem built_or_refuses (system : System) (files : List String) :
    (∃ parent, Built system files parent) ∨ ∃ before file after parent f, files = before ++ file :: after ∧
      Built system before parent ∧ Refuses system parent (some {}) file f := by
  induction files using List.reverseRecOn with
  | nil => exact .inl ⟨none, .nothing⟩
  | append_singleton files file ih =>
    rcases ih with ⟨parent, hbuilt⟩ | ⟨before, file', after, parent, f, rfl, hbuilt, hf⟩
    · rcases loads_or_unloaded system file with ⟨block, hload⟩ | ⟨f, hf⟩
      · cases hc : (compile block parent {}).result with
        | ok t => exact .inl ⟨_, hbuilt.file hload hc⟩
        | error e => exact .inr ⟨files, file, [], parent, _, rfl, hbuilt, .compiling hload rfl hc⟩
      · exact .inr ⟨files, file, [], parent, f, rfl, hbuilt, .unloaded hf⟩
    · exact .inr ⟨before, file', after ++ [file], parent, f, by simp, hbuilt, hf⟩

/-- a run ends at the first file that fails, whatever the files after it -/
theorem Refuses.runs {p : Progress} {options : Option Options} {file : String} {f : Failure}
    (h : Refuses system p.template options file f) :
    ∃ errors, ∀ system', system.AgreesOn system' [file] → ∀ (a : Arguments) later,
      a.optionsFor later = options → runFiles lib system' a p (file :: later) = (errors, .error f) := by
  cases h with
  | unloaded hf =>
    refine ⟨p.errors, fun system' hagrees a later _ => ?_⟩
    exact runFiles_unloaded ((load_congr (hagrees.2 file (by simp))).trans hf.load)
  | @compiling block used e hload hused hc =>
    refine ⟨(p.note lib system (compile block p.template used)).errors, fun system' hagrees a later hoptions => ?_⟩
    have hload' : load system' file = .ok block := (load_congr (hagrees.2 file (by simp))).trans hload.load
    rw [runFiles_compiled hload' (hoptions.trans hused), hc, note_congr hagrees.1]

end

/-! ## Whole runs -/

section

variable {lib : Libraries} {system : System} {a : Arguments} {args : List String}

theorem runWith_eq (h : lib.request args = .run a) : runWith lib system args =
    match runFiles lib system a (.start system a) a.files with
    | (errors, .ok output) => ⟨0, output, errors⟩
    | (errors, .error f) => ⟨1, "", errors ++ lib.report f.context f.cause⟩ := by
  unfold runWith
  generalize lib.request args = r at h
  subst h
  rfl

theorem FailsAt.runs {before after : List String} {file : String} {f : Failure}
    (h : FailsAt system a before file after f) (hargs : lib.request args = .run a) :
    ∃ earlier, runWith lib system args = ⟨1, "", earlier ++ lib.report f.context f.cause⟩ ∧
      ∀ system' args' after', lib.request args' = .run { a with files := before ++ file :: after' } →
        (after' = [] ↔ after = []) → system.AgreesOn system' (before ++ [file]) →
        runWith lib system' args' = runWith lib system args := by
  obtain ⟨hfiles, parent, hbuilt, hf⟩ := h
  obtain ⟨q, rfl, hq⟩ := hbuilt.runs lib (start_template system a)
  obtain ⟨errors, herrors⟩ := hf.runs
  have hrun {system' : System} {args' after' : List String}
      (hargs' : lib.request args' = .run { a with files := before ++ file :: after' })
      (hafter : after' = [] ↔ after = []) (hagrees : system.AgreesOn system' (before ++ [file])) :
      runWith lib system' args' = ⟨1, "", errors ++ lib.report f.context f.cause⟩ := by
    have hoptions : Arguments.optionsFor { a with files := before ++ file :: after' } after' = a.optionsFor after := by
      simp only [Arguments.optionsFor, hafter]
    have hstart : Progress.start system' { a with files := before ++ file :: after' } = Progress.start system a :=
      start_congr hagrees.1 rfl
    rw [runWith_eq hargs', hstart,
      hq system' (hagrees.mono fun file hfile => List.mem_append_left _ hfile) _ _ (by simp),
      herrors system' (hagrees.mono (by simp)) _ after' hoptions]
  have hsame : a = { a with files := before ++ file :: after } := by rw [← hfiles]
  have hself : runWith lib system args = ⟨1, "", errors ++ lib.report f.context f.cause⟩ :=
    hrun (hsame ▸ hargs) Iff.rfl ⟨rfl, fun _ _ => rfl⟩
  refine ⟨errors, hself, ?_⟩
  intro system' args' after' hargs' hafter hagrees
  rw [hself, hrun hargs' hafter hagrees]

theorem Succeeds.runs (hlib : lib.Documented) {product : Product} (h : Succeeds system a product)
    (hargs : lib.request args = .run a) :
    ∃ text errors, product.IsWritten lib text ∧ runWith lib system args = ⟨0, text ++ "\n", errors⟩ := by
  have hself (files : List String) : system.AgreesOn system files := ⟨rfl, fun _ _ => rfl⟩
  rw [runWith_eq hargs]
  cases h with
  | @template before last parent block t hfiles htree hbuilt hload hc =>
    obtain ⟨ds, hds⟩ := hbuilt.compiled
    obtain ⟨html, hhtml⟩ := render_of_compiled (.document ⟨block, { blockNames := a.blockNames }⟩ hds hc)
    obtain ⟨q, rfl, hq⟩ := hbuilt.runs lib (start_template system a)
    have hoptions : a.optionsFor [] = some { blockNames := a.blockNames } := by simp [Arguments.optionsFor, htree]
    have houtput : outputOf (some t) = .ok (html ++ "\n") := by simp only [outputOf, hhtml]
    refine ⟨html, (q.note lib system (compile block q.template { blockNames := a.blockNames })).errors, hhtml, ?_⟩
    rw [hfiles, hq system (hself _) a [last] (by simp), runFiles_compiled hload.load hoptions, hc]
    simp only [runFiles, houtput]
  | @tree before last parent block hfiles htree hbuilt hload =>
    obtain ⟨q, rfl, hq⟩ := hbuilt.runs lib (start_template system a)
    have htext := hlib.pretty _ block.numberless_toJson
    refine ⟨lib.pretty block.toJson, q.errors, ⟨rfl, fun j => ⟨fun h => h.unique htext, fun h => h ▸ htext⟩⟩, ?_⟩
    rw [hfiles, hq system (hself _) a [last] (by simp), runFiles_tree hload.load htree]

theorem succeeds_or_fails (h : a.files ≠ []) : (∃ product, Succeeds system a product) ∨
    ∃ before file after f, FailsAt system a before file after f := by
  have hfiles : a.files = a.files.dropLast ++ [a.files.getLast h] := (List.dropLast_concat_getLast h).symm
  generalize a.files.dropLast = front at hfiles
  generalize a.files.getLast h = last at hfiles
  rcases built_or_refuses system front with ⟨parent, hbuilt⟩ | ⟨before, file, after, parent, f, rfl, hbuilt, hf⟩
  · rcases loads_or_unloaded system last with ⟨block, hload⟩ | ⟨f, hf⟩
    · cases htree : a.dumpTree with
      | true => exact .inl ⟨_, .tree hfiles htree hbuilt hload⟩
      | false =>
        have hoptions : a.optionsFor [] = some { blockNames := a.blockNames } := by simp [Arguments.optionsFor, htree]
        cases hc : (compile block parent { blockNames := a.blockNames }).result with
        | ok t => exact .inl ⟨_, .template hfiles htree hbuilt hload hc⟩
        | error e => exact .inr ⟨front, last, [], _, hfiles, parent, hbuilt, .compiling hload hoptions hc⟩
    · exact .inr ⟨front, last, [], f, hfiles, parent, hbuilt, .unloaded hf⟩
  · have hoptions : a.optionsFor (after ++ [last]) = some {} := if_neg (by simp)
    exact .inr ⟨before, file, after ++ [last], f, by simpa using hfiles, parent, hbuilt, hoptions.symm ▸ hf⟩

/-- **Runs are all or nothing.** Whatever the arguments ask for, a run in which all steps succeed ends with the exit
code 0 and writes what the last template renders to, or the tree of the last file as a JSON text that is of no other
value; else one step is the first to fail, the run ends with the exit code 1, it writes nothing but errors, the last of
these is the report of the step, from which the failure can be read, and no file after that has an effect, except by not
being the last one. -/
theorem run_all_or_nothing (hlib : lib.Documented) (hargs : lib.request args = .run a) (system : System) :
    (∀ product, Succeeds system a product →
      ∃ text errors, product.IsWritten lib text ∧ runWith lib system args = ⟨0, text ++ "\n", errors⟩) ∧
    (∀ before file after f, FailsAt system a before file after f →
      (∃ earlier, runWith lib system args = ⟨1, "", earlier ++ report f.context f.cause⟩) ∧
      (∀ f' : Failure, report f'.context f'.cause = report f.context f.cause → f' = f) ∧
      ∀ system' args' after', lib.request args' = .run { a with files := before ++ file :: after' } →
        (after' = [] ↔ after = []) → system.AgreesOn system' (before ++ [file]) →
        runWith lib system' args' = runWith lib system args) ∧
    ((∃ product, Succeeds system a product) ∨ ∃ before file after f, FailsAt system a before file after f) := by
  refine ⟨?_, ?_, succeeds_or_fails (hlib.files hargs)⟩
  · intro product h
    exact h.runs hlib hargs
  · intro before file after f h
    obtain ⟨earlier, hrun, hlater⟩ := h.runs hargs
    exact ⟨⟨earlier, by rw [hrun, hlib.report]⟩, fun _ => Failure.report_injective, hlater⟩

end

/-- a root, an extension of it, a file that does not end its braces and one that calls for what nothing defines -/
def desk : System where
  contents file :=
    if file = "a" then .ok "#a p/m \x7b 'x' \x7d".toUTF8
    else if file = "b" then .ok "#b /m \x7b super! 'y' \x7d".toUTF8
    else if file = "c" then .ok "#c p \x7b\n 'x'".toUTF8
    else if file = "d" then .ok "/k \x7b super! \x7d".toUTF8
    else .error "gone"

/-- a chain that is rendered, a tree that is printed and chains that fail in each of the three ways -/
theorem desk_runs :
    (run desk ["--block-name", "n", "a", "b"] = ⟨0, "<p class=\"n__m a__m\">xy</p>\n", ""⟩ ∧
      ∃ t, Succeeds desk ⟨["n"], false, false, ["a", "b"]⟩ (.template t) ∧
        t.render = .ok "<p class=\"n__m a__m\">xy</p>") ∧
    (run desk ["--dump-tree", "a", "b"] = ⟨0, "\x7b\n  \"name\": \"b\",\n  \"content\": [\n    \x7b\n" ++
        "      \"nodeType\": \"Element\",\n      \"isHelper\": false,\n      \"tagName\": null,\n" ++
        "      \"names\": [\n        \"m\"\n      ],\n      \"attributes\": null,\n      \"content\": [\n" ++
        "        \x7b\n          \"nodeType\": \"SuperCall\",\n          \"elementName\": null\n        \x7d,\n" ++
        "        \x7b\n          \"nodeType\": \"Text\",\n          \"value\": \"y\"\n        \x7d\n" ++
        "      ]\n    \x7d\n  ]\n\x7d\n", ""⟩ ∧
      Succeeds desk ⟨[], true, false, ["a", "b"]⟩
        (.tree ⟨some "b", [.element ⟨false, none, some [some "m"], none, some [.superCall ⟨none⟩, .text "y"]⟩]⟩)) ∧
    (run desk ["a", "c", "b"] = ⟨1, "", "Error: parsing \"c\"\n\nCaused by:\n    syntax error: " ++
        "missing \"\x7d\" in compound statement at line 1 column 6 (offset 5): \"#c p \x7b\"\n"⟩ ∧
      FailsAt desk ⟨[], false, false, ["a", "c", "b"]⟩ ["a"] "c" ["b"]
        (.parsing "c" ⟨.missingClosingBrace, 5, 1, 6, "#c p \x7b"⟩) ∧
      ∀ system', desk.AgreesOn system' ["a", "c"] → run system' ["a", "c", "b"] = run desk ["a", "c", "b"]) ∧
    (run desk ["--trace", "a", "d"] = ⟨1, "", "T: compiling template \"a\", prefixes [\"a__\"]\n" ++
        "T: element \"m\" <p>\nT: compiling template \"\", prefixes [\"\", \"a__\"]\nT: element \"k\" <div>\n" ++
        "Error: compiling \"d\"\n\nCaused by:\n    " ++
        "super call for element \"k\", which no ancestor template defines\n"⟩ ∧
      FailsAt desk ⟨[], false, true, ["a", "d"]⟩ ["a"] "d" [] (.compiling "d" (.undefinedSuperTarget "k"))) ∧
    (run desk ["e", "a"] = ⟨1, "", "Error: reading \"e\"\n\nCaused by:\n    gone\n"⟩ ∧
      FailsAt desk ⟨[], false, false, ["e", "a"]⟩ [] "e" ["a"] (.reading "e" "gone")) := by
  have hload {file source : String} {block : Block} (hcontents : desk.contents file = .ok source.toUTF8)
      (hparse : parse source = .ok block) : Loads desk file block :=
    .intro hcontents (fromUTF8?_toUTF8 source) hparse
  have ha : Loads desk "a" ⟨some "a", [.element ⟨false, some "p", some [some "m"], none, some [.text "x"]⟩]⟩ :=
    hload rfl (by decide +kernel)
  have hd : Loads desk "d" ⟨none, [.element ⟨false, none, some [some "k"], none, some [.superCall ⟨none⟩]⟩]⟩ :=
    hload rfl (by decide +kernel)
  -- the second document is refused on top of just what the first compiles to
  obtain ⟨t, ht, he⟩ : ∃ t,
      (compile ⟨some "a", [.element ⟨false, some "p", some [some "m"], none, some [.text "x"]⟩]⟩ none {}).result =
        .ok t ∧
      (compile ⟨none, [.element ⟨false, none, some [some "k"], none, some [.superCall ⟨none⟩]⟩]⟩ (some t) {}).result =
        .error (.undefinedSuperTarget "k") := ⟨_, rfl, rfl⟩
  have hbuilt : Built desk ["a"] (some t) := .file .nothing ha ht
  have hparsing : FailsAt desk ⟨[], false, false, ["a", "c", "b"]⟩ ["a"] "c" ["b"]
      (.parsing "c" ⟨.missingClosingBrace, 5, 1, 6, "#c p \x7b"⟩) :=
    ⟨rfl, _, hbuilt, .unloaded (.parsing rfl (fromUTF8?_toUTF8 "#c p \x7b\n 'x'") (by decide +kernel))⟩
  have hrendered : run desk ["--block-name", "n", "a", "b"] = ⟨0, "<p class=\"n__m a__m\">xy</p>" ++ "\n", ""⟩ := by
    decide +kernel
  refine ⟨⟨hrendered, ?_⟩, ⟨by decide +kernel, .tree rfl rfl hbuilt (hload rfl (by decide +kernel))⟩,
    ⟨by decide +kernel, hparsing, ?_⟩, ⟨by decide +kernel, rfl, _, hbuilt, .compiling hd rfl he⟩,
    by decide +kernel, rfl, _, .nothing, .unloaded (.unread rfl)⟩
  · have hargs : Libraries.own.request ["--block-name", "n", "a", "b"] = .run ⟨["n"], false, false, ["a", "b"]⟩ := by
      decide
    obtain ⟨hsucceeds, hfails, ⟨product, h⟩ | ⟨before, file, after, f, h⟩⟩ :=
      run_all_or_nothing own_documented hargs desk
    · obtain ⟨text, errors, hwritten, hrun⟩ := hsucceeds product h
      obtain rfl := (String.append_left_inj _).1 (congrArg Outcome.output (hrendered.symm.trans hrun))
      cases h with
      | template hfiles htree hbuilt hload hc => exact ⟨_, .template hfiles htree hbuilt hload hc, hwritten⟩
      | tree _ htree => cases htree
    · obtain ⟨⟨earlier, hrun⟩, -⟩ := hfails before file after f h
      have hcode : 0 = 1 := congrArg Outcome.exitCode (hrendered.symm.trans hrun)
      cases hcode
  · have hargs : Libraries.own.request ["a", "c", "b"] = .run ⟨[], false, false, ["a", "c", "b"]⟩ := by decide
    obtain ⟨-, hfails, -⟩ := run_all_or_nothing own_documented hargs desk
    obtain ⟨-, -, hlater⟩ := hfails _ _ _ _ hparsing
    exact fun system' hagrees => hlater system' _ ["b"] hargs Iff.rfl hagrees

end BlockTemplates.CommandLine
