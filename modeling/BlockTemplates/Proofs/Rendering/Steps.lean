/-
Rendering without a limit, in two forms. `Writes` says what operations write, one rule for each operation, however deeply
they invoke each other. A `Machine` carries the same operations out one step at a time, with the invocations that have
begun on a stack; it stops when the stack is empty, or where an operation invokes what is not defined.

Main statements: `writes_iff_run` (the limited rendering reaches the same texts, given enough depth),
`writes_iff_after` (so does the machine, in finitely many steps) and `Machine.forall_after` (what a run of the machine
keeps).
-/
import BlockTemplates.Template.Render

namespace BlockTemplates

open Render

/-! ## Writing -/

/-- operations with the part of the chain that they belong to -/
abbrev Place := List Level × List Op

/-- what operations that belong to the level `owner` starts with write on behalf of `leaf` -/
inductive Writes (leaf : List Level) : List Level → List Op → String → Prop
  | done {owner} : Writes leaf owner [] ""
  | literal {owner ops s} (text : String) : Writes leaf owner ops s → Writes leaf owner (.literal text :: ops) (text ++ s)
  | classes {owner ops s} (names : List String) :
    Writes leaf owner ops s →
      Writes leaf owner (.elementClasses names :: ops) (classTokens (leafPrefixes leaf) names ++ s)
  | invoke {owner op ops s t} {place : Place} :
    target? leaf owner op = some place → Writes leaf place.1 place.2 s → Writes leaf owner ops t →
      Writes leaf owner (op :: ops) (s ++ t)

theorem writes_append {leaf owner : List Level} {ops ops' : List Op} {s t : String} (h : Writes leaf owner ops s)
    (h' : Writes leaf owner ops' t) : Writes leaf owner (ops ++ ops') (s ++ t) := by
  induction h with
  | done => simpa using h'
  | literal text _ ih => rw [String.append_assoc]; exact .literal text (ih h')
  | classes names _ ih => rw [String.append_assoc]; exact .classes names (ih h')
  | invoke ht hs _ _ ih => rw [String.append_assoc]; exact .invoke ht hs (ih h')

/-! ## Writing and the limited rendering -/

/-- how the operations that one operation invokes are carried out -/
def invoked (leaf : List Level) : Nat → List Level → List Op → Except RenderError String
  | 0, _, _ => .error .tooDeep
  | depth + 1, owner, ops => run leaf depth owner ops

theorem run_eq (leaf : List Level) (depth : Nat) (owner : List Level) (ops : List Op) :
    run leaf depth owner ops = (ops.mapM (write leaf owner (invoked leaf depth))).map String.join := by
  cases depth <;> rfl

theorem run_nil (leaf : List Level) (depth : Nat) (owner : List Level) : run leaf depth owner [] = .ok "" := by
  rw [run_eq]
  rfl

theorem run_cons (leaf : List Level) (depth : Nat) (owner : List Level) (op : Op) (ops : List Op) :
    run leaf depth owner (op :: ops) =
      (write leaf owner (invoked leaf depth) op).bind fun s => (run leaf depth owner ops).map (s ++ ·) := by
  simp only [run_eq, List.mapM_cons]
  cases write leaf owner (invoked leaf depth) op with
  | error e => rfl
  | ok s =>
    cases ops.mapM (write leaf owner (invoked leaf depth)) with
    | error e => rfl
    | ok ts => simp [bind, Except.bind, pure, Except.pure, Except.map, String.join_cons]

theorem run_cons_eq_ok {leaf owner : List Level} {depth : Nat} {op : Op} {ops : List Op} {text : String} :
    run leaf depth owner (op :: ops) = .ok text ↔
      ∃ s t, write leaf owner (invoked leaf depth) op = .ok s ∧ run leaf depth owner ops = .ok t ∧ text = s ++ t := by
  rw [run_cons]
  cases write leaf owner (invoked leaf depth) op with
  | error e => simp [Except.bind]
  | ok s =>
    cases run leaf depth owner ops with
    | error e => simp [Except.bind, Except.map]
    | ok t => simp [Except.bind, Except.map, eq_comm]

theorem run_append (leaf : List Level) (depth : Nat) (owner : List Level) (ops ops' : List Op) :
    run leaf depth owner (ops ++ ops') =
      (run leaf depth owner ops).bind fun s => (run leaf depth owner ops').map (s ++ ·) := by
  induction ops with
  | nil =>
    rw [List.nil_append, run_nil]
    cases run leaf depth owner ops' <;> simp [Except.bind, Except.map]
  | cons op ops ih =>
    rw [List.cons_append, run_cons, run_cons, ih]
    cases write leaf owner (invoked leaf depth) op with
    | error e => rfl
    | ok s =>
      cases run leaf depth owner ops with
      | error e => rfl
      | ok t => cases run leaf depth owner ops' <;> simp [Except.bind, Except.map, String.append_assoc]

theorem run_append_eq_ok {leaf owner : List Level} {depth : Nat} {ops ops' : List Op} {text : String} :
    run leaf depth owner (ops ++ ops') = .ok text ↔
      ∃ s t, run leaf depth owner ops = .ok s ∧ run leaf depth owner ops' = .ok t ∧ text = s ++ t := by
  rw [run_append]
  cases run leaf depth owner ops with
  | error e => simp [Except.bind]
  | ok s => cases run leaf depth owner ops' <;> simp [Except.bind, Except.map, eq_comm]

/-- operations are carried out if each of them is -/
theorem exists_run_eq_ok {leaf owner : List Level} {depth : Nat} {ops : List Op} :
    (∃ text, run leaf depth owner ops = .ok text) ↔
      ∀ op ∈ ops, ∃ s, write leaf owner (invoked leaf depth) op = .ok s := by
  induction ops with
  | nil => simp [run_nil]
  | cons op ops ih =>
    rw [List.forall_mem_cons, ← ih]
    constructor
    · rintro ⟨text, h⟩
      obtain ⟨s, t, hs, ht, -⟩ := run_cons_eq_ok.1 h
      exact ⟨⟨s, hs⟩, t, ht⟩
    · rintro ⟨⟨s, hs⟩, t, ht⟩
      exact ⟨s ++ t, run_cons_eq_ok.2 ⟨s, t, hs, ht, rfl⟩⟩

/-- an operation that invokes something writes what that writes -/
theorem write_eq_invoked {leaf owner : List Level} {inv : List Level → List Op → Except RenderError String} {op : Op}
    {place : Place} (h : target? leaf owner op = some place) : write leaf owner inv op = inv place.1 place.2 := by
  cases op with
  | literal text => simp [target?] at h
  | elementClasses names => simp [target?] at h
  | invokeElement name => simp only [write, h]
  | invokeContent name => simp only [write, h]
  | superContent name => simp only [write, h]

theorem write_mono {leaf owner : List Level} {inv inv' : List Level → List Op → Except RenderError String} {op : Op}
    {s : String} (hi : ∀ owner ops s, inv owner ops = .ok s → inv' owner ops = .ok s)
    (h : write leaf owner inv op = .ok s) : write leaf owner inv' op = .ok s := by
  cases ht : target? leaf owner op with
  | some place =>
    rw [write_eq_invoked ht] at h ⊢
    exact hi _ _ _ h
  | none => cases op <;> simp_all [write]

theorem run_succ {leaf : List Level} {depth : Nat} {owner : List Level} {ops : List Op} {text : String}
    (h : run leaf depth owner ops = .ok text) : run leaf (depth + 1) owner ops = .ok text := by
  induction depth generalizing owner ops text with
  | zero =>
    induction ops generalizing text with
    | nil => rw [run_nil] at h ⊢; exact h
    | cons op ops ih =>
      obtain ⟨s, t, hs, ht, rfl⟩ := run_cons_eq_ok.1 h
      exact run_cons_eq_ok.2 ⟨s, t, write_mono (fun _ _ _ hi => by simp [invoked] at hi) hs, ih ht, rfl⟩
  | succ depth ihd =>
    induction ops generalizing text with
    | nil => rw [run_nil] at h ⊢; exact h
    | cons op ops ih =>
      obtain ⟨s, t, hs, ht, rfl⟩ := run_cons_eq_ok.1 h
      exact run_cons_eq_ok.2 ⟨s, t, write_mono (fun _ _ _ hi => ihd hi) hs, ih ht, rfl⟩

theorem run_mono {leaf : List Level} {depth depth' : Nat} {owner : List Level} {ops : List Op} {text : String}
    (hd : depth ≤ depth') (h : run leaf depth owner ops = .ok text) : run leaf depth' owner ops = .ok text := by
  induction hd with
  | refl => exact h
  | step _ ih => exact run_succ ih

theorem writes_of_run {leaf : List Level} {depth : Nat} {owner : List Level} {ops : List Op} {text : String}
    (h : run leaf depth owner ops = .ok text) : Writes leaf owner ops text := by
  induction depth using Nat.strongRecOn generalizing owner ops text with
  | ind depth ihd =>
    induction ops generalizing text with
    | nil =>
      rw [run_nil] at h
      cases h
      exact .done
    | cons op ops ih =>
      obtain ⟨s, t, hs, ht, rfl⟩ := run_cons_eq_ok.1 h
      cases hp : target? leaf owner op with
      | some place =>
        rw [write_eq_invoked hp] at hs
        cases depth with
        | zero => simp [invoked] at hs
        | succ depth => exact .invoke hp (ihd depth (Nat.lt_succ_self depth) hs) (ih ht)
      | none =>
        cases op with
        | literal text => simp only [write, Except.ok.injEq] at hs; exact hs ▸ .literal text (ih ht)
        | elementClasses names => simp only [write, Except.ok.injEq] at hs; exact hs ▸ .classes names (ih ht)
        | invokeElement name => simp [write, hp] at hs
        | invokeContent name => simp [write, hp] at hs
        | superContent name => simp [write, hp] at hs

theorem run_of_writes {leaf owner : List Level} {ops : List Op} {text : String} (h : Writes leaf owner ops text) :
    ∃ depth, run leaf depth owner ops = .ok text := by
  induction h with
  | done => exact ⟨0, run_nil _ _ _⟩
  | literal text _ ih =>
    obtain ⟨depth, hd⟩ := ih
    exact ⟨depth, run_cons_eq_ok.2 ⟨text, _, rfl, hd, rfl⟩⟩
  | classes names _ ih =>
    obtain ⟨depth, hd⟩ := ih
    exact ⟨depth, run_cons_eq_ok.2 ⟨_, _, rfl, hd, rfl⟩⟩
  | invoke hp _ _ ihs iht =>
    obtain ⟨ds, hs⟩ := ihs
    obtain ⟨dt, ht⟩ := iht
    refine ⟨max ds dt + 1, run_cons_eq_ok.2 ⟨_, _, ?_, run_mono (by omega) ht, rfl⟩⟩
    rw [write_eq_invoked hp]
    exact run_mono (Nat.le_max_left ds dt) hs

theorem writes_iff_run {leaf owner : List Level} {ops : List Op} {text : String} :
    Writes leaf owner ops text ↔ ∃ depth, run leaf depth owner ops = .ok text :=
  ⟨run_of_writes, fun ⟨_, h⟩ => writes_of_run h⟩

/-- operations write at most one text -/
theorem Writes.unique {leaf owner : List Level} {ops : List Op} {s t : String} (hs : Writes leaf owner ops s)
    (ht : Writes leaf owner ops t) : s = t := by
  obtain ⟨ds, hs⟩ := run_of_writes hs
  obtain ⟨dt, ht⟩ := run_of_writes ht
  have hs := run_mono (Nat.le_max_left ds dt) hs
  rw [run_mono (Nat.le_max_right ds dt) ht] at hs
  exact (Except.ok.inj hs).symm

/-! ## The machine -/

/-- a rendering under way -/
structure Machine where
  /-- what is still to be carried out, the innermost invocation first -/
  frames : List Place
  /-- the markup written so far -/
  out : String := ""
deriving DecidableEq, Repr

/-- carry out one operation, or leave operations that are carried out; there is no step when all is done, nor where an
operation invokes what is not defined -/
def Machine.step (leaf : List Level) : Machine → Option Machine
  | ⟨[], _⟩ => none
  | ⟨(_, []) :: frames, out⟩ => some ⟨frames, out⟩
  | ⟨(owner, .literal text :: ops) :: frames, out⟩ => some ⟨(owner, ops) :: frames, out ++ text⟩
  | ⟨(owner, .elementClasses names :: ops) :: frames, out⟩ =>
    some ⟨(owner, ops) :: frames, out ++ classTokens (leafPrefixes leaf) names⟩
  | ⟨(owner, op :: ops) :: frames, out⟩ =>
    (target? leaf owner op).map fun place => ⟨place :: (owner, ops) :: frames, out⟩

/-- the machine after a number of steps, if it can make so many -/
def Machine.after (leaf : List Level) : Nat → Machine → Option Machine
  | 0, m => some m
  | n + 1, m => (m.step leaf).bind (Machine.after leaf n)

/-- whether the machine stops after finitely many steps, and how it looks then -/
def Machine.StopsAt (leaf : List Level) (m last : Machine) : Prop :=
  ∃ n, m.after leaf n = some last ∧ last.step leaf = none

theorem Machine.after_add (leaf : List Level) (n k : Nat) (m : Machine) :
    m.after leaf (n + k) = (m.after leaf n).bind (Machine.after leaf k) := by
  induction n generalizing m with
  | zero => simp [Machine.after]
  | succ n ih =>
    rw [Nat.succ_add]
    simp only [Machine.after]
    cases m.step leaf with
    | none => rfl
    | some m' => simpa using ih m'

theorem Machine.step_invoke {leaf owner : List Level} {op : Op} {place : Place} (ops : List Op) (frames : List Place)
    (out : String) (h : target? leaf owner op = some place) :
    Machine.step leaf ⟨(owner, op :: ops) :: frames, out⟩ = some ⟨place :: (owner, ops) :: frames, out⟩ := by
  cases op with
  | literal text => simp [target?] at h
  | elementClasses names => simp [target?] at h
  | invokeElement name => simp only [Machine.step, h, Option.map_some]
  | invokeContent name => simp only [Machine.step, h, Option.map_some]
  | superContent name => simp only [Machine.step, h, Option.map_some]

section

variable {leaf : List Level} {P : Place → Prop} (hrest : ∀ owner op ops, P (owner, op :: ops) → P (owner, ops))
  (hnext : ∀ owner op ops next, P (owner, op :: ops) → target? leaf owner op = some next → P next)
include hrest hnext

/-- a step keeps what holds of all that is on the stack, if it holds of what operations invoke -/
theorem Machine.forall_step {m m' : Machine} (h : ∀ place ∈ m.frames, P place) (hs : m.step leaf = some m') :
    ∀ place ∈ m'.frames, P place := by
  obtain ⟨_ | ⟨⟨owner, _ | ⟨op, ops⟩⟩, frames⟩, out⟩ := m
  · simp [step] at hs
  · obtain rfl := Option.some.inj hs
    exact (List.forall_mem_cons.1 h).2
  · obtain ⟨hplace, hframes⟩ := List.forall_mem_cons.1 h
    have hbehind : ∀ place ∈ (owner, ops) :: frames, P place :=
      List.forall_mem_cons.2 ⟨hrest owner op ops hplace, hframes⟩
    cases ht : target? leaf owner op with
    | some next =>
      rw [step_invoke ops frames out ht] at hs
      obtain rfl := Option.some.inj hs
      exact List.forall_mem_cons.2 ⟨hnext owner op ops next hplace ht, hbehind⟩
    | none =>
      cases op with
      | literal text =>
        obtain rfl := Option.some.inj hs
        exact hbehind
      | elementClasses names =>
        obtain rfl := Option.some.inj hs
        exact hbehind
      | invokeElement name => simp [step, ht] at hs
      | invokeContent name => simp [step, ht] at hs
      | superContent name => simp [step, ht] at hs

theorem Machine.forall_after {n : Nat} {m m' : Machine} (h : ∀ place ∈ m.frames, P place)
    (hs : m.after leaf n = some m') : ∀ place ∈ m'.frames, P place := by
  induction n generalizing m with
  | zero =>
    obtain rfl := Option.some.inj hs
    exact h
  | succ n ih =>
    obtain ⟨m₁, h₁, h₂⟩ := Option.bind_eq_some_iff.1 hs
    exact ih (forall_step hrest hnext h h₁) h₂

end

theorem Machine.after_of_writes {leaf owner : List Level} {ops : List Op} {text : String}
    (h : Writes leaf owner ops text) (frames : List Place) (out : String) :
    ∃ n, Machine.after leaf n ⟨(owner, ops) :: frames, out⟩ = some ⟨frames, out ++ text⟩ := by
  induction h generalizing frames out with
  | done => exact ⟨1, by simp [Machine.after, Machine.step]⟩
  | literal text _ ih =>
    obtain ⟨n, hn⟩ := ih frames (out ++ text)
    exact ⟨n + 1, by simpa [Machine.after, Machine.step, String.append_assoc] using hn⟩
  | classes names _ ih =>
    obtain ⟨n, hn⟩ := ih frames (out ++ classTokens (leafPrefixes leaf) names)
    exact ⟨n + 1, by simpa [Machine.after, Machine.step, String.append_assoc] using hn⟩
  | @invoke owner op ops s t place hp _ _ ihs iht =>
    obtain ⟨n, hn⟩ := ihs ((owner, ops) :: frames) out
    obtain ⟨k, hk⟩ := iht frames (out ++ s)
    refine ⟨n + k + 1, ?_⟩
    simp only [Machine.after, Machine.step_invoke ops frames out hp, Option.bind_some]
    rw [Machine.after_add, hn, Option.bind_some, hk, String.append_assoc]

/-- a machine that empties its stack first carries out the operations on top of it -/
theorem Machine.writes_of_after {leaf owner : List Level} {n : Nat} {ops : List Op} {frames : List Place}
    {out final : String} (h : Machine.after leaf n ⟨(owner, ops) :: frames, out⟩ = some ⟨[], final⟩) :
    ∃ text, Writes leaf owner ops text ∧ ∃ k < n, Machine.after leaf k ⟨frames, out ++ text⟩ = some ⟨[], final⟩ := by
  induction n using Nat.strongRecOn generalizing owner ops frames out with
  | ind n ih =>
    cases n with
    | zero => simp [Machine.after] at h
    | succ n =>
      cases ops with
      | nil =>
        simp only [Machine.after, Machine.step, Option.bind_some] at h
        exact ⟨"", .done, n, Nat.lt_succ_self n, by simpa using h⟩
      | cons op ops =>
        cases hp : target? leaf owner op with
        | some place =>
          simp only [Machine.after, Machine.step_invoke ops frames out hp, Option.bind_some] at h
          obtain ⟨s, hs, k, hk, h⟩ := ih n (Nat.lt_succ_self n) h
          obtain ⟨t, ht, j, hj, h⟩ := ih k (by omega) h
          exact ⟨s ++ t, .invoke hp hs ht, j, by omega, by rwa [← String.append_assoc]⟩
        | none =>
          cases op with
          | literal text =>
            simp only [Machine.after, Machine.step, Option.bind_some] at h
            obtain ⟨s, hs, k, hk, h⟩ := ih n (Nat.lt_succ_self n) h
            exact ⟨text ++ s, .literal text hs, k, by omega, by rwa [← String.append_assoc]⟩
          | elementClasses names =>
            simp only [Machine.after, Machine.step, Option.bind_some] at h
            obtain ⟨s, hs, k, hk, h⟩ := ih n (Nat.lt_succ_self n) h
            exact ⟨_, .classes names hs, k, by omega, by rwa [← String.append_assoc]⟩
          | invokeElement name => simp [Machine.after, Machine.step, hp] at h
          | invokeContent name => simp [Machine.after, Machine.step, hp] at h
          | superContent name => simp [Machine.after, Machine.step, hp] at h

theorem writes_iff_after {leaf owner : List Level} {ops : List Op} {text : String} :
    Writes leaf owner ops text ↔ ∃ n, Machine.after leaf n ⟨[(owner, ops)], ""⟩ = some ⟨[], text⟩ := by
  constructor
  · intro h
    simpa using Machine.after_of_writes h [] ""
  · rintro ⟨n, h⟩
    obtain ⟨s, hs, k, -, h⟩ := Machine.writes_of_after h
    -- the empty stack is left as it is, so the text is all that was written
    cases k with
    | zero => simp only [Machine.after, Option.some.injEq, Machine.mk.injEq] at h; simpa [← h.2] using hs
    | succ k => simp [Machine.after, Machine.step] at h

end BlockTemplates
