/-
The walk with an explicit stack of scopes. Instead of passing a scope on, this walk keeps all scopes that have begun on a
stack, writes to the one on top, and looks for the enclosing name through all of them. It stops with an error of its own
where it needs a scope and the stack is empty. The two walks agree in every outcome, so that never happens, and after a
whole document the stack holds the top level alone.

Main statement: `simulates_stackWalk`.
-/
import BlockTemplates.Proofs.Reading.Failures

namespace BlockTemplates

open Html Markup Render

/-! ## The walk -/

/-- why a walk with a stack stops -/
inductive Stop where
  | refused (e : CompileError)
  /-- a scope is needed and there is none -/
  | noScope
deriving DecidableEq, Repr

/-- the scopes that have begun, the innermost first -/
abbrev StackWalk := StateT (List Scope) (ExceptT Stop (StateM Record))

namespace StackWalk

/-- what does not touch the scopes -/
def lift {α : Type} (w : Walk α) : StackWalk α := fun stack => ExceptT.mk do
  match ← w.run with
  | .ok a => return .ok (a, stack)
  | .error e => return .error (.refused e)

def stop {α : Type} (s : Stop) : StackWalk α := fun _ => ExceptT.mk (return .error s)

/-- write to the innermost scope -/
def append (ops : List Op) : StackWalk Unit := do
  match ← get with
  | [] => stop .noScope
  | scope :: rest => set (scope.pushAll ops :: rest)

def enter (name : String) : StackWalk Unit := modify (⟨some name, {}⟩ :: ·)

/-- the innermost scope, which is left -/
def leave : StackWalk Scope := do
  match ← get with
  | [] => stop .noScope
  | scope :: rest =>
    set rest
    return scope

/-- the innermost named element, however many scopes further out -/
def scopeName : StackWalk (Option String) := do return (← get).findSome? (·.name)

def superCall (env : Surroundings) (call : SuperCall) : StackWalk Unit := do
  match call.elementName <|> (← scopeName) with
  | none => stop (.refused .superOutsideElement)
  | some target =>
    if env.ancestors.isEmpty then stop (.refused (.superWithoutParent .content))
    else if (findBody target env.ancestors).isNone then stop (.refused (.undefinedSuperTarget target))
    else append [.superContent target]

def namedElement (env : Surroundings) (e : Element) (name : String) (tag : Option String) (children : StackWalk Unit) :
    StackWalk Unit := do
  let slots ← lift (namedSlots env name e.attributes)
  let render ← lift (namedOps env e name tag slots)
  enter name
  children
  let inner ← leave
  lift (define name ⟨(Buffer.ofList render).toList, inner.ops.toList⟩)
  append [.invokeElement name]

def anonymousElement (env : Surroundings) (e : Element) (tag : Option String) (children : StackWalk Unit) :
    StackWalk Unit := do
  if e.isHelper then children
  else
    let tag := tag.getD defaultTag
    let slots ← lift (MonadExcept.ofExcept (resolveSlots env.ancestors (e.attributes.getD {}) none))
    let opening ← lift (MonadExcept.ofExcept (openingTag env tag slots e.classNames))
    append opening
    children
    if e.content.isSome || !isSelfClosing tag then append [closingTag tag]

def element (env : Surroundings) (expand : List Node → StackWalk Unit) (e : Element) (content : StackWalk Unit) :
    StackWalk Unit := do
  let tag ← lift (resolveTag env e)
  let children : StackWalk Unit := do
    if e.isHelper then expand (← lift (expansion env e tag)) else content
  match e.name with
  | some name => namedElement env e name tag children
  | none => anonymousElement env e tag children

mutual

def node (env : Surroundings) (expand : List Node → StackWalk Unit) : Node → StackWalk Unit
  | .element ⟨helper, tag, names, attributes, none⟩ =>
    element env expand ⟨helper, tag, names, attributes, none⟩ (pure ())
  | .element ⟨helper, tag, names, attributes, some content⟩ =>
    element env expand ⟨helper, tag, names, attributes, some content⟩ (nodes env expand content)
  | .text value => append [.literal (escapeText value)]
  | .comment _ _ => pure ()
  | .superCall call => superCall env call

def nodes (env : Surroundings) (expand : List Node → StackWalk Unit) : List Node → StackWalk Unit
  | [] => pure ()
  | n :: ns => do
    node env expand n
    nodes env expand ns

end

end StackWalk

/-- add nodes to the innermost scope, with helpers expanded at most `depth` deep -/
def stackWalk (env : Surroundings) : Nat → List Node → StackWalk Unit
  | 0, ns => StackWalk.nodes env (fun _ => StackWalk.stop (.refused .expansionTooDeep)) ns
  | depth + 1, ns => StackWalk.nodes env (stackWalk env depth) ns

/-! ## Outcomes -/

/-- the outcome of a walk with a stack, and the record it leaves -/
def StackWalk.outcome {α : Type} (w : StackWalk α) (stack : List Scope) (r : Record) :
    Except Stop (α × List Scope) × Record := ((w.run stack).run.run r).run

/-- what a walk that passes its scope on comes to on top of a stack -/
def Walk.outcomeOn (w : Walk Scope) (rest : List Scope) (r : Record) : Except Stop (Unit × List Scope) × Record :=
  match (w.run.run r).run with
  | (.ok scope, r') => (.ok ((), scope :: rest), r')
  | (.error e, r') => (.error (.refused e), r')

/-- on top of any stack, the walk with a stack comes to what the walk that passes its scope on comes to; where that is in
no named element, the stack must not be either -/
def Simulates (w : StackWalk Unit) (f : Scope → Walk Scope) : Prop :=
  ∀ scope rest r, (scope.name = none → ∀ s ∈ rest, s.name = none) →
    w.outcome (scope :: rest) r = (f scope).outcomeOn rest r ∧
      ∀ scope' r', Runs (f scope) r scope' r' → scope'.name = scope.name

open StackWalk

theorem StackWalk.outcome_bind {α β : Type} (w : StackWalk α) (k : α → StackWalk β) (stack : List Scope) (r : Record) :
    (w >>= k).outcome stack r =
      match w.outcome stack r with
      | (.ok (a, stack'), r') => (k a).outcome stack' r'
      | (.error s, r') => (.error s, r') := by
  simp only [outcome, StateT.run_bind, ExceptT.run_bind, Id.run_bind]
  rcases ((w.run stack).run.run r).run with ⟨e | ⟨a, stack'⟩, r'⟩
  · rfl
  · rfl

theorem StackWalk.outcome_lift {α : Type} (w : Walk α) (stack : List Scope) (r : Record) :
    (lift w).outcome stack r =
      match (w.run.run r).run with
      | (.ok a, r') => (.ok (a, stack), r')
      | (.error e, r') => (.error (.refused e), r') := by
  change ((w.run >>= fun x => _).run r).run = _
  rw [StateT.run_bind, Id.run_bind]
  rcases (w.run.run r).run with ⟨e | a, r'⟩
  · rfl
  · rfl

/-- the name that is looked for on the whole stack is that of the innermost scope -/
theorem StackWalk.outcome_scopeName {α : Type} (w : Option String → StackWalk α) {scope : Scope} {rest : List Scope}
    (r : Record) (hc : scope.name = none → ∀ s ∈ rest, s.name = none) :
    (scopeName >>= w).outcome (scope :: rest) r = (w scope.name).outcome (scope :: rest) r := by
  have hfound : (scope :: rest).findSome? (·.name) = scope.name := by
    rw [List.findSome?_cons]
    cases hn : scope.name with
    | some name => rfl
    | none => exact List.findSome?_eq_none_iff.2 (hc hn)
  rw [StackWalk.outcome_bind]
  change (w ((scope :: rest).findSome? (·.name))).outcome (scope :: rest) r = _
  rw [hfound]

theorem Walk.outcomeOn_bind {α : Type} (w : Walk α) (k : α → Walk Scope) (rest : List Scope) (r : Record) :
    (w >>= k).outcomeOn rest r =
      match (w.run.run r).run with
      | (.ok a, r') => (k a).outcomeOn rest r'
      | (.error e, r') => (.error (.refused e), r') := by
  simp only [outcomeOn, ExceptT.run_bind, StateT.run_bind, Id.run_bind]
  rcases (w.run.run r).run with ⟨e | a, r'⟩
  · rfl
  · rfl

namespace Simulates

theorem pure : Simulates (Pure.pure ()) Pure.pure := by
  intro scope rest r _
  refine ⟨rfl, ?_⟩
  intro scope' r' h
  rw [(runs_pure.1 h).1]

theorem append (ops : List Op) : Simulates (StackWalk.append ops) fun scope => Pure.pure (scope.pushAll ops) := by
  intro scope rest r _
  refine ⟨rfl, ?_⟩
  intro scope' r' h
  rw [(runs_pure.1 h).1, Scope.pushAll_name]

theorem stop (e : CompileError) : Simulates (StackWalk.stop (.refused e)) fun _ => throw e := by
  intro scope rest r _
  exact ⟨rfl, fun scope' r' h => absurd h not_runs_throw⟩

theorem bind {w v : StackWalk Unit} {f g : Scope → Walk Scope} (hw : Simulates w f) (hv : Simulates v g) :
    Simulates (w >>= fun _ => v) fun scope => f scope >>= g := by
  intro scope rest r hc
  obtain ⟨hout, hname⟩ := hw scope rest r hc
  constructor
  · rw [StackWalk.outcome_bind, hout, Walk.outcomeOn_bind, Walk.outcomeOn]
    rcases hrun : ((f scope).run.run r).run with ⟨e | scope₁, r₁⟩
    · rfl
    · exact (hv scope₁ rest r₁ (hname scope₁ r₁ hrun ▸ hc)).1
  · intro scope' r' h
    obtain ⟨scope₁, r₁, h₁, h₂⟩ := runs_bind.1 h
    have hname₁ := hname scope₁ r₁ h₁
    rw [(hv scope₁ rest r₁ (hname₁ ▸ hc)).2 scope' r' h₂, hname₁]

theorem lift {α : Type} (x : Walk α) {w : α → StackWalk Unit} {f : α → Scope → Walk Scope}
    (h : ∀ a, Simulates (w a) (f a)) : Simulates (StackWalk.lift x >>= w) fun scope => x >>= fun a => f a scope := by
  intro scope rest r hc
  constructor
  · rw [StackWalk.outcome_bind, StackWalk.outcome_lift, Walk.outcomeOn_bind]
    rcases (x.run.run r).run with ⟨e | a, r₁⟩
    · rfl
    · exact (h a scope rest r₁ hc).1
  · intro scope' r' hx
    obtain ⟨a, r₁, -, h₂⟩ := runs_bind.1 hx
    exact (h a scope rest r₁ hc).2 scope' r' h₂

/-- a scope that is entered is the one that is left -/
theorem enclosed (name : String) {children : StackWalk Unit} {f : Scope → Walk Scope} {k : Scope → StackWalk Unit}
    {g : Scope → Scope → Walk Scope} (hchildren : Simulates children f) (hk : ∀ inner, Simulates (k inner) (g inner)) :
    Simulates (do enter name; children; let inner ← leave; k inner)
      fun scope => f ⟨some name, {}⟩ >>= fun inner => g inner scope := by
  intro scope rest r hc
  obtain ⟨hout, -⟩ := hchildren ⟨some name, {}⟩ (scope :: rest) r (by simp)
  constructor
  · rw [StackWalk.outcome_bind, Walk.outcomeOn_bind]
    change (children >>= fun _ => leave >>= k).outcome (⟨some name, {}⟩ :: scope :: rest) r = _
    rw [StackWalk.outcome_bind, hout, Walk.outcomeOn]
    rcases ((f ⟨some name, {}⟩).run.run r).run with ⟨e | inner, r₁⟩
    · rfl
    · exact (hk inner scope rest r₁ hc).1
  · intro scope' r' h
    obtain ⟨inner, r₁, -, h₂⟩ := runs_bind.1 h
    exact (hk inner scope rest r₁ hc).2 scope' r' h₂

end Simulates

/-! ## The walks agree -/

section

variable {env : Surroundings} {e : Element}

theorem simulates_superCall (call : SuperCall) : Simulates (superCall env call) (compileSuperCall env call) := by
  intro scope rest r hc
  unfold superCall compileSuperCall
  rw [outcome_scopeName _ r hc]
  cases call.elementName <|> scope.name with
  | none => exact Simulates.stop _ scope rest r hc
  | some target =>
    dsimp only
    split
    · exact Simulates.stop _ scope rest r hc
    · split
      · exact Simulates.stop _ scope rest r hc
      · exact Simulates.append _ scope rest r hc

theorem simulates_namedElement {name : String} {tag : Option String} {children : StackWalk Unit}
    {f : Scope → Walk Scope} (h : Simulates children f) :
    Simulates (StackWalk.namedElement env e name tag children) (BlockTemplates.namedElement env e name tag f) := by
  unfold StackWalk.namedElement BlockTemplates.namedElement
  refine .lift _ fun slots => .lift _ fun render => .enclosed name h fun inner => .lift _ fun _ =>
    .append _

theorem simulates_anonymousElement {tag : Option String} {children : StackWalk Unit} {f : Scope → Walk Scope}
    (h : Simulates children f) :
    Simulates (StackWalk.anonymousElement env e tag children) (BlockTemplates.anonymousElement env e tag f) := by
  unfold StackWalk.anonymousElement BlockTemplates.anonymousElement
  cases hh : e.isHelper with
  | true => simpa only [hh, if_true] using h
  | false =>
    simp only [Bool.false_eq_true, if_false]
    refine .lift _ fun slots => .lift _ fun opening => ?_
    have hclosing (tag : String) : Simulates
        (if e.content.isSome || !isSelfClosing tag then StackWalk.append [closingTag tag] else Pure.pure ())
        fun scope => Pure.pure
          (if e.content.isSome || !isSelfClosing tag then scope.pushAll [closingTag tag] else scope) := by
      split
      · exact .append _
      · exact .pure
    simpa only [pure_bind] using Simulates.bind (.append opening) (.bind h (hclosing (tag.getD defaultTag)))

theorem simulates_element {expand : List Node → StackWalk Unit} {expand' : Scope → List Node → Walk Scope}
    {content : StackWalk Unit} {content' : Scope → Walk Scope} (hcontent : Simulates content content')
    (hexpand : ∀ ns, Simulates (expand ns) (expand' · ns)) :
    Simulates (element env expand e content) (compileElement env expand' e content') := by
  have hchildren (tag : Option String) :
      Simulates (do if e.isHelper then expand (← StackWalk.lift (expansion env e tag)) else content)
        (childrenOf env expand' e content' tag) := by
    unfold childrenOf
    split
    · exact .lift _ hexpand
    · exact hcontent
  unfold element
  rw [funext (compileElement_eq env expand' e content')]
  refine .lift _ fun tag => ?_
  cases e.name with
  | some name => exact simulates_namedElement (hchildren tag)
  | none => exact simulates_anonymousElement (hchildren tag)

theorem node_element (env : Surroundings) (expand : List Node → StackWalk Unit) (e : Element) :
    node env expand (.element e) = element env expand e (StackWalk.nodes env expand (e.content.getD [])) := by
  obtain ⟨helper, tag, names, attributes, content⟩ := e
  cases content with
  | none => simp only [node, Option.getD_none, StackWalk.nodes]
  | some content => simp only [node, Option.getD_some]

theorem simulates_nodes {expand : List Node → StackWalk Unit} {expand' : Scope → List Node → Walk Scope}
    (hexpand : ∀ ns, Simulates (expand ns) (expand' · ns)) (ns : List Node) :
    Simulates (StackWalk.nodes env expand ns) (compileNodes env expand' · ns) := by
  induction ns using nodes_induction with
  | nil =>
    simp only [StackWalk.nodes, compileNodes]
    exact .pure
  | text value ns ih =>
    simp only [StackWalk.nodes, compileNodes, node, compileNode]
    exact .bind (.append _) ih
  | comment value multiline ns ih =>
    simp only [StackWalk.nodes, compileNodes, node, compileNode]
    exact .bind .pure ih
  | superCall call ns ih =>
    simp only [StackWalk.nodes, compileNodes, node, compileNode]
    exact .bind (simulates_superCall call) ih
  | element e ns ihc ih =>
    simp only [StackWalk.nodes, compileNodes, node_element, compileNode_element]
    exact .bind (simulates_element ihc hexpand) ih

end

/-- the two walks agree in every outcome -/
theorem simulates_stackWalk (env : Surroundings) (depth : Nat) (ns : List Node) :
    Simulates (stackWalk env depth ns) (walk env depth · ns) := by
  induction depth generalizing ns with
  | zero => exact simulates_nodes (fun _ => .stop _) ns
  | succ depth ih => exact simulates_nodes ih ns

end BlockTemplates
