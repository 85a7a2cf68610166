/-
Attributes in their order. The attributes in an opening tag are those that the element inherits, in the order in which
they are inherited, and behind them the others that it is given, in the order in which each is first named. Each stands
there once: with the value it was given last, else with the inherited one. Class tokens stand in front of the value of
the class attribute, or in a class attribute of their own in front of all others.

Main statements: `names_setAll` and `get?_setAll` (which attributes there are after others have been set, and with which
values) and `merged_attributes`.
-/
import Mathlib.Data.List.Induction
import BlockTemplates.Proofs.Reading.Inheritance
import BlockTemplates.Proofs.Rendering.Expansion

namespace BlockTemplates

open Html Markup Render

/-! ## Setting attributes -/

/-- the value that a name is given last, which is absent for a bare name -/
def lastValue? (list : List Attribute) (name : String) : Option (Option String) :=
  (list.filter (·.name == name)).getLast?.map (·.value)

/-- the inherited names, then the given ones that are not among them, each once -/
def mergedNames (inherited : AttributeSlots) (given : List Attribute) : List String :=
  inherited.names ++ (given.map (·.name)).eraseDups.filter (· ∉ inherited.names)

theorem lastValue?_concat (list : List Attribute) (a : Attribute) (name : String) :
    lastValue? (list ++ [a]) name = if a.name = name then some a.value else lastValue? list name := by
  by_cases h : a.name = name
  · simp [lastValue?, h]
  · simp [lastValue?, h]

theorem eraseDups_concat (names : List String) (name : String) :
    (names ++ [name]).eraseDups = names.eraseDups ++ (if name ∈ names then [] else [name]) := by
  rw [List.eraseDups_append]
  by_cases h : name ∈ names
  · simp [h, List.removeAll]
  · simp [h, List.removeAll, List.eraseDups_cons]

namespace AttributeSlots

theorem setAll_concat (s : AttributeSlots) (list : List Attribute) (a : Attribute) :
    s.setAll (list ++ [a]) = (s.setAll list).set a.name a.value := by
  simp [setAll, setAttribute, List.foldl_append]

/-- setting attributes keeps the names in their order and adds the new ones in that of their first occurrence -/
theorem names_setAll (s : AttributeSlots) (list : List Attribute) : (s.setAll list).names = mergedNames s list := by
  unfold mergedNames
  induction list using List.reverseRecOn with
  | nil => simp [setAll]
  | append_singleton list a ih =>
    rw [setAll_concat, names_set, ih, List.map_append, List.map_singleton, eraseDups_concat, List.filter_append]
    by_cases hs : a.name ∈ s.names
    · rw [if_pos (List.mem_append_left _ hs)]
      split <;> simp [hs]
    · by_cases hl : a.name ∈ list.map (·.name)
      · rw [if_pos (by simpa [hs] using hl), if_pos hl, List.filter_nil, List.append_nil]
      · rw [if_neg (by simpa [hs] using hl), if_neg hl]
        simp [hs]

/-- after setting attributes a name has the value it was given last, else the one that it had -/
theorem get?_setAll (s : AttributeSlots) (list : List Attribute) (name : String) :
    (s.setAll list).get? name = (lastValue? list name <|> s.get? name) := by
  induction list using List.reverseRecOn with
  | nil => rfl
  | append_singleton list a ih =>
    rw [setAll_concat, lastValue?_concat]
    by_cases h : a.name = name
    · rw [if_pos h, ← h, get?_set_self]
      rfl
    · rw [if_neg h, get?_set_of_ne _ (Ne.symm h), ih]

theorem nodup_names_set {s : AttributeSlots} (h : s.names.Nodup) (name : String) (value : Option String) :
    (s.set name value).names.Nodup := by
  rw [names_set]
  split
  · exact h
  · rename_i hname
    exact List.nodup_append.2 ⟨h, by simp, by simpa using fun n hn (heq : n = name) => hname (heq ▸ hn)⟩

theorem nodup_names_setAll {s : AttributeSlots} (h : s.names.Nodup) (list : List Attribute) :
    (s.setAll list).names.Nodup := by
  induction list using List.reverseRecOn with
  | nil => exact h
  | append_singleton list a ih =>
    rw [setAll_concat]
    exact nodup_names_set ih a.name a.value

/-- where no name occurs twice, the slots are the names with what is read under them -/
theorem pairs_eq {s : AttributeSlots} (h : s.names.Nodup) :
    s.pairs = s.names.map fun name => (name, (s.get? name).join) := by
  obtain ⟨ps⟩ := s
  simp only [names, get?] at h ⊢
  induction ps with
  | nil => rfl
  | cons p ps ih =>
    obtain ⟨n, v⟩ := p
    rw [List.map_cons, List.nodup_cons] at h
    have htail : (ps.map Prod.fst).map (fun name => (name, (((n, v) :: ps).lookup name).join)) =
        (ps.map Prod.fst).map fun name => (name, (ps.lookup name).join) := by
      refine List.map_congr_left fun name hname => ?_
      have hne : (name == n) = false := beq_eq_false_iff_ne.2 fun heq => h.1 (heq ▸ hname)
      rw [List.lookup_cons, hne]
    rw [List.map_cons, List.map_cons, htail, ← ih h.2]
    simp

theorem position?_isNone (s : AttributeSlots) (name : String) : (s.position? name).isNone ↔ name ∉ s.names := by
  simp only [position?, names, Option.isNone_iff_eq_none, List.findIdx?_eq_none_iff, List.mem_map, not_exists, not_and]
  constructor
  · intro h p hp
    simpa using h p hp
  · intro h p hp
    simpa using h p hp

end AttributeSlots

/-! ## Attributes in an opening tag -/

/-- the value given last, else the inherited one; empty for a bare name -/
def mergedValue (inherited : AttributeSlots) (given : List Attribute) (name : String) : String :=
  (lastValue? given name <|> inherited.get? name).join.getD ""

/-- what stands before the value of an attribute -/
def tokensBefore (prefixes classNames : List String) (name value : String) : String :=
  if name = "class" ∧ classNames ≠ [] then classTokens prefixes classNames ++ (if value = "" then "" else " ") else ""

/-- the attributes in an opening tag, each with a space before it -/
def mergedText (prefixes classNames : List String) (inherited : AttributeSlots) (given : List Attribute) : String :=
  (if classNames ≠ [] ∧ "class" ∉ mergedNames inherited given then
    " class=\"" ++ classTokens prefixes classNames ++ "\"" else "") ++
  String.join ((mergedNames inherited given).map fun name =>
    " " ++ name ++ "=\"" ++ tokensBefore prefixes classNames name (mergedValue inherited given name) ++
      escapeAttribute (mergedValue inherited given name) ++ "\"")

theorem attributeText_setAll {s : AttributeSlots} (h : s.names.Nodup) (prefixes classNames : List String)
    (list : List Attribute) :
    Occurrence.attributeText prefixes classNames (s.setAll list) = mergedText prefixes classNames s list := by
  have hpairs : (s.setAll list).pairs.map (Occurrence.slotText prefixes classNames) =
      (mergedNames s list).map fun name =>
        " " ++ name ++ "=\"" ++ tokensBefore prefixes classNames name (mergedValue s list name) ++
          escapeAttribute (mergedValue s list name) ++ "\"" := by
    rw [AttributeSlots.pairs_eq (AttributeSlots.nodup_names_setAll h list), AttributeSlots.names_setAll, List.map_map]
    simp only [AttributeSlots.get?_setAll]
    rfl
  have hclass : (classNames ≠ [] ∧ ((s.setAll list).position? "class").isNone) ↔
      (classNames ≠ [] ∧ "class" ∉ mergedNames s list) := by
    rw [AttributeSlots.position?_isNone, AttributeSlots.names_setAll]
  unfold Occurrence.attributeText mergedText
  rw [hpairs]
  exact congrArg (· ++ _) (if_congr hclass rfl rfl)

/-! ## Attributes in a chain -/

theorem Context.nodup_slotsOf {ctx : Context} (hctx : ∀ name slots, ctx.slots? name = some slots → slots.names.Nodup)
    {e : Element} {slots : AttributeSlots} (h : ctx.slotsOf e = some slots) : slots.names.Nodup := by
  unfold Context.slotsOf at h
  split at h
  · contradiction
  · contradiction
  · cases h
    exact AttributeSlots.nodup_names_setAll (s := {}) List.nodup_nil _
  · rename_i call list _
    cases h
    refine AttributeSlots.nodup_names_setAll ?_ list
    cases hinherited : (call.elementName <|> e.name).bind ctx.slots? with
    | none => exact List.nodup_nil
    | some slots =>
      obtain ⟨name, -, hslots⟩ := Option.bind_eq_some_iff.1 hinherited
      exact hctx name slots hslots

/-- no element of a chain has an attribute twice -/
theorem ReadsAll.nodup_slots {ds : List Document} {rs : List Reading} (h : ReadsAll ds rs) {r : Reading} (hr : r ∈ rs)
    {p : Option String × Occurrence} (hp : p ∈ r.parts.occurrences) {slots : AttributeSlots}
    (hslots : p.2.slots = some slots) : slots.names.Nodup := by
  induction h generalizing r p slots with
  | none => contradiction
  | @document ds rs tags parts d _ hreads ih =>
    rcases List.mem_cons.1 hr with rfl | hr
    · refine Context.nodup_slotsOf (fun name slots hslots => ?_) ((hreads.readFrom p hp).slots ▸ hslots)
      obtain ⟨r, hr, hslots⟩ := List.exists_of_findSome?_eq_some hslots
      rw [Reading.lookup_slotLists] at hslots
      obtain ⟨p, hp, hslots⟩ := List.exists_of_findSome?_eq_some hslots
      split at hslots
      · exact ih hr (List.mem_reverse.1 hp) hslots
      · contradiction
    · exact ih hr hp hslots

/-- nor is one inherited twice -/
theorem nodup_inheritedSlots {ds : List Document} {parent : Option Template} (h : Compiled ds parent)
    {call : Option SuperCall} {own : Option String} {inherited : AttributeSlots}
    (hi : inheritedSlots (levelsOf parent) call own = .ok inherited) : inherited.names.Nodup := by
  obtain ⟨rs, hrs, hlevels⟩ := compiled_reads h
  unfold inheritedSlots at hi
  split at hi
  · cases hi
    exact List.nodup_nil
  · split at hi
    · contradiction
    · rename_i target _
      split at hi
      · contradiction
      · cases hi
        rw [hlevels.getD_findSlots, inheritedFrom]
        cases hslots : rs.findSome? (·.slots? target) with
        | none => exact List.nodup_nil
        | some slots =>
          obtain ⟨r, hr, hslots⟩ := List.exists_of_findSome?_eq_some hslots
          obtain ⟨p, hp, hslots⟩ := List.exists_of_findSome?_eq_some hslots
          split at hslots
          · exact hrs.nodup_slots hr (List.mem_reverse.1 hp) hslots
          · contradiction

/-- **Opening tags carry the attributes in their order.** On top of every parent, or none, and whatever an element
inherits, its attributes are those inherited and then those given besides, each once. Its opening tag is written with
them, whatever class names it has and wherever it is rendered: each as its name with the value given last, else the
inherited one, in quotes, and with the class tokens before the value of the class attribute or in front of all. -/
theorem merged_attributes {ds : List Document} {parent : Option Template} (h : Compiled ds parent)
    {call : Option SuperCall} {own : Option String} {inherited : AttributeSlots}
    (hi : inheritedSlots (levelsOf parent) call own = .ok inherited) (given : List Attribute) :
    resolveSlots (levelsOf parent) ⟨call, given⟩ own = .ok (inherited.setAll given) ∧
      (mergedNames inherited given).Nodup ∧
      ∀ (env : Surroundings) (tag : String) (classNames : List String), (classNames ≠ [] → env.hasPrefixes = true) →
        ∃ ops, openingTag env tag (inherited.setAll given) classNames = .ok ops ∧
          ∀ (b : Buffer) (leaf owner : List Level) (depth : Nat) (text : String),
            run leaf depth owner b.toList = .ok text →
            run leaf depth owner (b.pushAll ops).toList =
              .ok (text ++ ("<" ++ tag ++ mergedText (leafPrefixes leaf) classNames inherited given ++ ">")) := by
  have hnodup := nodup_inheritedSlots h hi
  refine ⟨?_, ?_, ?_⟩
  · unfold resolveSlots
    rw [hi]
    rfl
  · rw [← AttributeSlots.names_setAll]
    exact AttributeSlots.nodup_names_setAll hnodup given
  · intro env tag classNames hprefixes
    have hallowed : ¬ (classNames ≠ [] ∧ ¬ env.hasPrefixes = true) := fun ⟨hne, hnone⟩ => hnone (hprefixes hne)
    refine ⟨_, if_neg hallowed, ?_⟩
    intro b leaf owner depth text htext
    rw [run_pushAll, run_append, htext, run_literal_cons, run_append, run_attributeOps, run_literal_cons, run_nil,
      attributeText_setAll hnodup]
    simp [Except.bind, Except.map, String.append_assoc]

/-- an element with a class and a title -/
def entitled : Document where
  block := ⟨some "a", [.element ⟨false, some "p", some [some "m"],
    some ⟨none, [⟨"title", some "T"⟩, ⟨"class", some "wide"⟩]⟩, none⟩]⟩

/-- attributes of which two are inherited and one is named twice -/
def regiven : List Attribute := [⟨"id", some "x"⟩, ⟨"title", none⟩, ⟨"id", some "y"⟩]

/-- the inherited attributes stay in front, the title loses its value, and the class tokens come before the class -/
theorem entitled_attributes : ∃ t, Compiled [entitled] (some t) ∧
    inheritedSlots (levelsOf (some t)) (some {}) (some "m") = .ok ⟨[("title", some "T"), ("class", some "wide")]⟩ ∧
    ∃ ops, openingTag ⟨t.chain, true, .builtins⟩ "p"
        (AttributeSlots.setAll ⟨[("title", some "T"), ("class", some "wide")]⟩ regiven) ["m"] = .ok ops ∧
      run t.chain 0 t.chain (({} : Buffer).pushAll ops).toList =
        .ok "<p title=\"\" class=\"a__m wide\" id=\"y\">" := by
  obtain ⟨t, ht, hprefixes, hi⟩ : ∃ t, (compile entitled.block none entitled.options).result = .ok t ∧
      leafPrefixes t.chain = ["a__"] ∧
      inheritedSlots (levelsOf (some t)) (some {}) (some "m") = .ok ⟨[("title", some "T"), ("class", some "wide")]⟩ :=
    ⟨_, rfl, rfl, rfl⟩
  have hcompiled : Compiled [entitled] (some t) := .document _ .none ht
  obtain ⟨-, -, hopening⟩ := merged_attributes hcompiled hi regiven
  obtain ⟨ops, hops, hrun⟩ := hopening ⟨t.chain, true, .builtins⟩ "p" ["m"] fun _ => rfl
  refine ⟨t, hcompiled, hi, ops, hops, ?_⟩
  rw [hrun {} t.chain t.chain 0 "" rfl, hprefixes]
  decide

end BlockTemplates
