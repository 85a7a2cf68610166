/-
Attribute slots as a vector of pairs beside a hash index from each name to its place in the vector. The two are changed
one after the other and never compared, so a single wrong entry of the index would overwrite the attribute of another
name, or reach outside the vector. `InStep` is what keeps that from happening: the index has an entry exactly where a
name stands. One call keeps it and does what `AttributeSlots.set` does to the pairs, and so does every sequence of calls
on slots that are empty, collected from a list, cloned, or left by earlier calls.

Main statements: `InStep.set` (one call), `InStep.run` (a sequence of calls) and `slots_are_an_ordered_map`.
-/
import Mathlib.Data.List.Induction
import BlockTemplates.Proofs.Rendering.MergedAttributes

namespace BlockTemplates

open Markup

/-! ## Slots with an index -/

/-- pairs in the order of their first definition, and the place of each name -/
structure IndexedSlots where
  slots : List (String × Option String) := []
  index : Std.ExtHashMap String Nat := ∅

namespace IndexedSlots

def size (s : IndexedSlots) : Nat := s.slots.length

def position (s : IndexedSlots) (name : String) : Option Nat := s.index[name]?

/-- the value of a name, if it is there; there is no answer where the index points outside the vector -/
def get (s : IndexedSlots) (name : String) : Option (Option (Option String)) :=
  match s.position name with
  | none => some none
  | some i => s.slots[i]?.map fun p => some p.2

/-- the pair at a place with another value; the index does not change -/
def overwrite (s : IndexedSlots) (i : Nat) (p : String × Option String) (value : Option String) : IndexedSlots :=
  { s with slots := s.slots.set i (p.1, value) }

/-- the pair at the end of the vector, and its place in the index -/
def append (s : IndexedSlots) (name : String) (value : Option String) : IndexedSlots :=
  { slots := s.slots ++ [(name, value)], index := s.index.insert name s.slots.length }

/-- overwrite at the place of the name, or append; there is no result where the index points outside the vector -/
def set (s : IndexedSlots) (name : String) (value : Option String) : Option IndexedSlots :=
  match s.index[name]? with
  | some i => s.slots[i]?.map (s.overwrite i · value)
  | none => some (s.append name value)

def setAttribute (s : IndexedSlots) (a : Attribute) : Option IndexedSlots := s.set a.name a.value

def ofList (as : List Attribute) : Option IndexedSlots := as.foldlM setAttribute {}

/-- a copy with a vector and an index of its own -/
def clone (s : IndexedSlots) : IndexedSlots := ⟨s.slots, s.index⟩

/-- the pairs as they are iterated -/
def ordered (s : IndexedSlots) : AttributeSlots := ⟨s.slots⟩

/-- the calls that change slots -/
inductive Call where
  | set (name : String) (value : Option String)
  | setAttribute (a : Attribute)
deriving DecidableEq, Repr

/-- the attribute that a call sets -/
def Call.given : Call → Attribute
  | .set name value => ⟨name, value⟩
  | .setAttribute a => a

def step (s : IndexedSlots) : Call → Option IndexedSlots
  | .set name value => s.set name value
  | .setAttribute a => s.setAttribute a

def run (s : IndexedSlots) (calls : List Call) : Option IndexedSlots := calls.foldlM step s

/-- the slots that can be had, with the attributes set so far -/
inductive Made : List Attribute → IndexedSlots → Prop
  | empty : Made [] {}
  | list {as : List Attribute} {s : IndexedSlots} (h : ofList as = some s) : Made as s
  | clone {as : List Attribute} {s : IndexedSlots} (h : Made as s) : Made as s.clone
  | calls {as : List Attribute} {s s' : IndexedSlots} (h : Made as s) (calls : List Call)
      (hrun : s.run calls = some s') : Made (as ++ calls.map Call.given) s'

/-! ## The vector and the index in step -/

/-- the index has an entry exactly where a name stands -/
def InStep (s : IndexedSlots) : Prop :=
  ∀ (name : String) (i : Nat), s.position name = some i ↔ s.ordered.names[i]? = some name

end IndexedSlots

namespace AttributeSlots

theorem names_getElem? (s : AttributeSlots) (i : Nat) : s.names[i]? = s.pairs[i]?.map Prod.fst :=
  List.getElem?_map

theorem setIn_of_notMem {name : String} {ps : List (String × Option String)} (h : name ∉ ps.map Prod.fst)
    (value : Option String) : setIn name value ps = ps ++ [(name, value)] := by
  induction ps with
  | nil => rfl
  | cons p ps ih =>
    rw [List.map_cons, List.mem_cons, not_or] at h
    rw [setIn, if_neg (Ne.symm h.1), ih h.2, List.cons_append]

theorem setAll_append (s : AttributeSlots) (as bs : List Attribute) : s.setAll (as ++ bs) = (s.setAll as).setAll bs :=
  List.foldl_append

/-- where no name occurs twice, the value is replaced at the one place of the name -/
theorem setIn_of_getElem? {ps : List (String × Option String)} (h : (ps.map Prod.fst).Nodup) {i : Nat}
    {p : String × Option String} (hp : ps[i]? = some p) (value : Option String) :
    setIn p.1 value ps = ps.set i (p.1, value) := by
  induction ps generalizing i with
  | nil => contradiction
  | cons q ps ih =>
    rw [List.map_cons, List.nodup_cons] at h
    cases i with
    | zero =>
      obtain rfl : q = p := by simpa using hp
      rw [setIn, if_pos rfl, List.set_cons_zero]
    | succ i =>
      rw [List.getElem?_cons_succ] at hp
      have hne : q.1 ≠ p.1 := fun heq => h.1 (heq ▸ List.mem_map_of_mem (List.mem_of_getElem? hp))
      rw [setIn, if_neg hne, ih h.2 hp, List.set_cons_succ]

/-- where no name occurs twice, each pair is found under its name -/
theorem lookup_of_mem {ps : List (String × Option String)} (h : (ps.map Prod.fst).Nodup)
    {p : String × Option String} (hp : p ∈ ps) : ps.lookup p.1 = some p.2 := by
  induction ps with
  | nil => contradiction
  | cons q ps ih =>
    rw [List.map_cons, List.nodup_cons] at h
    rcases List.mem_cons.1 hp with rfl | hp
    · exact List.lookup_cons_self
    · have hne : p.1 ≠ q.1 := fun heq => h.1 (heq ▸ List.mem_map_of_mem hp)
      rw [List.lookup_cons, beq_eq_false_iff_ne.2 hne]
      exact ih h.2 hp

/-- where no name occurs twice, the place of a name is the one at which it stands -/
theorem position?_eq_some_iff {s : AttributeSlots} (h : s.names.Nodup) (name : String) (i : Nat) :
    s.position? name = some i ↔ s.names[i]? = some name := by
  rw [position?, List.findIdx?_eq_some_iff_getElem, names_getElem?, Option.map_eq_some_iff]
  constructor
  · rintro ⟨hi, hname, -⟩
    exact ⟨s.pairs[i], List.getElem?_eq_getElem hi, eq_of_beq hname⟩
  · rintro ⟨p, hp, rfl⟩
    obtain ⟨hi, rfl⟩ := List.getElem?_eq_some_iff.1 hp
    refine ⟨hi, beq_self_eq_true _, fun j hj hname => ?_⟩
    -- a pair before it with the same name would be a second place of that name
    have hsame : s.names[j]? = s.names[i]? := by
      rw [names_getElem?, names_getElem?, hp, List.getElem?_eq_getElem (Nat.lt_trans hj hi), Option.map_some,
        Option.map_some, eq_of_beq hname]
    have hlt : j < s.names.length := by
      rw [names, List.length_map]
      exact Nat.lt_trans hj hi
    exact Nat.ne_of_lt hj ((List.getElem?_inj hlt h).1 hsame)

end AttributeSlots

namespace IndexedSlots

variable {s s' : IndexedSlots} {name : String}

theorem inStep_empty : InStep {} := by
  intro name i
  show (∅ : Std.ExtHashMap String Nat)[name]? = some i ↔ ([] : List String)[i]? = some name
  rw [Std.ExtHashMap.getElem?_empty, List.getElem?_nil]
  exact iff_of_false nofun nofun

/-- two places of one name would be two entries of the index for it -/
theorem InStep.nodup_names (h : s.InStep) : s.ordered.names.Nodup := by
  refine List.pairwise_iff_getElem.2 fun i j hi hj hij heq => ?_
  have hplace : s.position s.ordered.names[i] = some i := (h _ i).2 (List.getElem?_eq_getElem hi)
  rw [heq, (h _ j).2 (List.getElem?_eq_getElem hj)] at hplace
  exact Nat.ne_of_lt hij (Option.some.inj hplace).symm

theorem InStep.notMem (h : s.InStep) (hname : s.position name = none) : name ∉ s.ordered.names := by
  intro hmem
  obtain ⟨i, hi⟩ := List.mem_iff_getElem?.1 hmem
  rw [(h name i).2 hi] at hname
  contradiction

/-- where the index points there is a pair, and it has that name -/
theorem InStep.slot (h : s.InStep) {i : Nat} (hname : s.position name = some i) :
    ∃ p, s.slots[i]? = some p ∧ p.1 = name :=
  Option.map_eq_some_iff.1 ((AttributeSlots.names_getElem? s.ordered i).symm.trans ((h name i).1 hname))

theorem InStep.ordered_overwrite (h : s.InStep) {i : Nat} {p : String × Option String} (hp : s.slots[i]? = some p)
    (value : Option String) : (s.overwrite i p value).ordered = s.ordered.set p.1 value :=
  congrArg AttributeSlots.mk (AttributeSlots.setIn_of_getElem? h.nodup_names hp value).symm

theorem InStep.ordered_append (hnew : name ∉ s.ordered.names) (value : Option String) :
    (s.append name value).ordered = s.ordered.set name value :=
  congrArg AttributeSlots.mk (AttributeSlots.setIn_of_notMem hnew value).symm

/-- the names are the same as before, and so is the index -/
theorem InStep.overwrite (h : s.InStep) {i : Nat} {p : String × Option String} (hp : s.slots[i]? = some p)
    (value : Option String) : (s.overwrite i p value).InStep := by
  intro other j
  have hmem : p.1 ∈ s.ordered.names := List.mem_map_of_mem (List.mem_of_getElem? hp)
  rw [h.ordered_overwrite hp, AttributeSlots.names_set, if_pos hmem]
  exact h other j

/-- behind a list without it a name stands at the end, and no other name has moved -/
theorem getElem?_concat_iff {names : List String} (hnew : name ∉ names) (other : String) (i : Nat) :
    (names ++ [name])[i]? = some other ↔ if name = other then names.length = i else names[i]? = some other := by
  rcases Nat.lt_trichotomy i names.length with hi | rfl | hi
  · rw [List.getElem?_append_left hi]
    split
    · rename_i hname
      subst hname
      exact iff_of_false (fun heq => hnew (List.mem_of_getElem? heq)) (Nat.ne_of_gt hi)
    · exact Iff.rfl
  · rw [List.getElem?_concat_length, List.getElem?_eq_none (Nat.le_refl _)]
    simp
  · rw [List.getElem?_eq_none (by rw [List.length_append, List.length_singleton]; omega),
      List.getElem?_eq_none (Nat.le_of_lt hi)]
    simp [Nat.ne_of_lt hi]

/-- the new name has the new place, and the others have theirs still -/
theorem InStep.append (h : s.InStep) (hnew : name ∉ s.ordered.names) (value : Option String) :
    (s.append name value).InStep := by
  intro other i
  have hlength : s.ordered.names.length = s.slots.length := List.length_map _
  rw [InStep.ordered_append hnew, AttributeSlots.names_set, if_neg hnew, getElem?_concat_iff hnew, hlength]
  show (s.index.insert name s.slots.length)[other]? = some i ↔ _
  rw [Std.ExtHashMap.getElem?_insert]
  by_cases hname : name = other
  · rw [if_pos hname, if_pos (beq_iff_eq.2 hname), Option.some.injEq]
  · rw [if_neg hname, if_neg (by simpa using hname)]
    exact h other i

/-- one call reaches inside the vector, does to the pairs what setting does, and keeps the index in step -/
theorem InStep.set (h : s.InStep) (name : String) (value : Option String) :
    ∃ s', s.set name value = some s' ∧ s'.ordered = s.ordered.set name value ∧ s'.InStep := by
  unfold IndexedSlots.set
  cases hname : s.index[name]? with
  | some i =>
    obtain ⟨p, hp, rfl⟩ := h.slot hname
    refine ⟨s.overwrite i p value, ?_, h.ordered_overwrite hp value, h.overwrite hp value⟩
    simp only [hp, Option.map_some]
  | none =>
    have hnew : name ∉ s.ordered.names := h.notMem hname
    exact ⟨s.append name value, rfl, InStep.ordered_append hnew value, h.append hnew value⟩

theorem InStep.step (h : s.InStep) (call : Call) :
    ∃ s', s.step call = some s' ∧ s'.ordered = s.ordered.setAttribute call.given ∧ s'.InStep := by
  cases call with
  | set name value => exact h.set name value
  | setAttribute a => exact h.set a.name a.value

theorem InStep.run (h : s.InStep) (calls : List Call) :
    ∃ s', s.run calls = some s' ∧ s'.ordered = s.ordered.setAll (calls.map Call.given) ∧ s'.InStep := by
  induction calls generalizing s with
  | nil => exact ⟨s, rfl, rfl, h⟩
  | cons call calls ih =>
    obtain ⟨s₁, hstep, hordered₁, h₁⟩ := h.step call
    obtain ⟨s', hrun, hordered, h'⟩ := ih h₁
    refine ⟨s', ?_, ?_, h'⟩
    · rw [IndexedSlots.run, List.foldlM_cons, hstep]
      exact hrun
    · rw [hordered, hordered₁]
      rfl

/-- collecting a list is setting one attribute after the other, from no slots on -/
theorem ofList_eq_run (as : List Attribute) : ofList as = run {} (as.map Call.setAttribute) := by
  rw [ofList, IndexedSlots.run, List.foldlM_map]
  rfl

theorem map_given_setAttribute (as : List Attribute) : (as.map Call.setAttribute).map Call.given = as := by
  rw [List.map_map]
  exact List.map_id as

/-- every list can be collected -/
theorem ofList_inStep (as : List Attribute) :
    ∃ s, ofList as = some s ∧ s.ordered = AttributeSlots.ofList as ∧ s.InStep := by
  have h := inStep_empty.run (as.map Call.setAttribute)
  rw [← ofList_eq_run, map_given_setAttribute] at h
  exact h

theorem Made.inStep {as : List Attribute} (h : Made as s) : s.ordered = AttributeSlots.ofList as ∧ s.InStep := by
  induction h with
  | empty => exact ⟨rfl, inStep_empty⟩
  | @list as s h =>
    obtain ⟨s', hs', hmade⟩ := ofList_inStep as
    obtain rfl : s' = s := Option.some.inj (hs'.symm.trans h)
    exact hmade
  | clone _ ih => exact ih
  | @calls as s s' _ calls hrun ih =>
    obtain ⟨s'', hs'', hordered, hstep⟩ := ih.2.run calls
    obtain rfl : s'' = s' := Option.some.inj (hs''.symm.trans hrun)
    refine ⟨?_, hstep⟩
    rw [hordered, ih.1, AttributeSlots.ofList, AttributeSlots.ofList, AttributeSlots.setAll_append]

/-! ## What is read -/

theorem InStep.position_eq (h : s.InStep) (name : String) : s.position name = s.ordered.position? name :=
  Option.ext fun i => (h name i).trans (AttributeSlots.position?_eq_some_iff h.nodup_names name i).symm

theorem InStep.get_eq (h : s.InStep) (name : String) : s.get name = some (s.ordered.get? name) := by
  unfold IndexedSlots.get
  cases hname : s.position name with
  | none =>
    have habsent : s.ordered.get? name = none := by
      refine List.lookup_eq_none_iff.2 fun p hp => ?_
      exact bne_iff_ne.2 fun heq => h.notMem hname (heq ▸ List.mem_map_of_mem hp)
    rw [habsent]
  | some i =>
    obtain ⟨p, hp, rfl⟩ := h.slot hname
    have hlookup : s.ordered.get? p.1 = some p.2 :=
      AttributeSlots.lookup_of_mem h.nodup_names (List.mem_of_getElem? hp)
    rw [hlookup]
    simp only [hp, Option.map_some]

/-- slots in step with the same pairs have the same index -/
theorem InStep.ext {t : IndexedSlots} (h : s.InStep) (ht : t.InStep) (heq : s.slots = t.slots) : s = t := by
  have hordered : s.ordered = t.ordered := congrArg AttributeSlots.mk heq
  have hposition (name : String) : s.position name = t.position name :=
    Option.ext fun i => by rw [h name i, ht name i, hordered]
  have hindex : s.index = t.index := Std.ExtHashMap.ext_getElem? hposition
  obtain ⟨slots, index⟩ := s
  cases heq
  cases hindex
  rfl

/-- an ordered map of the attributes set so far, and what is read of it is what is read of `AttributeSlots` -/
structure IsOrderedMap (s : IndexedSlots) (given : List Attribute) : Prop where
  ordered : s.ordered = AttributeSlots.ofList given
  nodup : s.ordered.names.Nodup
  /-- in the order in which each is first defined -/
  names : s.ordered.names = (given.map (·.name)).eraseDups
  get : ∀ name, s.get name = some (lastValue? given name) ∧ s.get name = some (s.ordered.get? name)
  get_unset : ∀ name, s.get name = some none ↔ name ∉ given.map (·.name)
  place : ∀ name i, s.position name = some i ↔ s.ordered.names[i]? = some name
  position : ∀ name, s.position name = s.ordered.position? name
  size : s.size = s.ordered.names.length ∧ s.size = s.ordered.size

theorem lastValue?_eq_none_iff {given : List Attribute} {name : String} :
    lastValue? given name = none ↔ name ∉ given.map (·.name) := by
  simp [lastValue?]

theorem names_ofList (given : List Attribute) :
    (AttributeSlots.ofList given).names = (given.map (·.name)).eraseDups := by
  rw [AttributeSlots.ofList, AttributeSlots.names_setAll]
  simp [mergedNames, AttributeSlots.names]

theorem get?_ofList (given : List Attribute) (name : String) :
    (AttributeSlots.ofList given).get? name = lastValue? given name := by
  rw [AttributeSlots.ofList, AttributeSlots.get?_setAll]
  cases lastValue? given name with
  | none => rfl
  | some value => rfl

theorem Made.isOrderedMap {given : List Attribute} (h : Made given s) : s.IsOrderedMap given := by
  obtain ⟨hordered, hs⟩ := h.inStep
  have hget (name : String) : s.get name = some (lastValue? given name) := by
    rw [hs.get_eq, hordered, get?_ofList]
  exact {
    ordered := hordered
    nodup := hs.nodup_names
    names := by rw [hordered, names_ofList]
    get := fun name => ⟨hget name, hs.get_eq name⟩
    get_unset := fun name => by rw [hget, Option.some.injEq, lastValue?_eq_none_iff]
    place := hs
    position := hs.position_eq
    size := ⟨(List.length_map _).symm, rfl⟩ }

/-- **Attribute slots are an ordered map.** Every list of attributes can be collected. On slots that are empty,
collected, cloned, or left by earlier calls, every sequence of calls comes to an end. The slots it leaves have the names
of all attributes set so far, each once and in the order in which it was first set, and under each the value it was set
to last; the index gives the place of each name and of no other; and pairs, positions, values and size are those of
`AttributeSlots`. The names there were stand in front in the order they had. Slots are equal, index and all, exactly
when they have the same pairs. -/
theorem slots_are_an_ordered_map :
    (∀ as, ∃ s, ofList as = some s) ∧
    ∀ {made : List Attribute} {s : IndexedSlots}, Made made s →
      (∀ calls, ∃ s', s.run calls = some s' ∧ s'.IsOrderedMap (made ++ calls.map Call.given) ∧
        s.ordered.names <+: s'.ordered.names) ∧
      ∀ {others : List Attribute} {t : IndexedSlots}, Made others t → (s = t ↔ s.slots = t.slots) := by
  refine ⟨fun as => ?_, fun {made s} hs => ⟨fun calls => ?_, fun {others t} ht => ?_⟩⟩
  · obtain ⟨s, h, -⟩ := ofList_inStep as
    exact ⟨s, h⟩
  · obtain ⟨s', hrun, hordered, -⟩ := hs.inStep.2.run calls
    refine ⟨s', hrun, (hs.calls calls hrun).isOrderedMap, ?_⟩
    rw [hordered, AttributeSlots.names_setAll]
    exact List.prefix_append _ _
  · exact ⟨congrArg slots, hs.inStep.2.ext ht.inStep.2⟩

/-- a copy of inherited slots in which the class is set again and a bare name added: the class keeps its place, and the
slots are those collected from the three attributes at once -/
theorem overridden_slots : ∃ inherited own,
    ofList [⟨"lang", some "en"⟩, ⟨"class", some "wide"⟩] = some inherited ∧
    inherited.clone.run [.set "class" (some "narrow"), .setAttribute ⟨"hidden", none⟩] = some own ∧
    own.slots = [("lang", some "en"), ("class", some "narrow"), ("hidden", none)] ∧
    own.position "class" = some 1 ∧ own.get "title" = some none ∧
    ofList [⟨"lang", some "en"⟩, ⟨"class", some "narrow"⟩, ⟨"hidden", none⟩] = some own := by
  obtain ⟨hall, -⟩ := slots_are_an_ordered_map
  obtain ⟨inherited, hinherited⟩ := hall [⟨"lang", some "en"⟩, ⟨"class", some "wide"⟩]
  obtain ⟨atOnce, hatOnce⟩ := hall [⟨"lang", some "en"⟩, ⟨"class", some "narrow"⟩, ⟨"hidden", none⟩]
  have hcopy := (Made.list hinherited).clone
  obtain ⟨own, hrun, hmap, -⟩ := (slots_are_an_ordered_map.2 hcopy).1
    [.set "class" (some "narrow"), .setAttribute ⟨"hidden", none⟩]
  have hslots : own.slots = [("lang", some "en"), ("class", some "narrow"), ("hidden", none)] :=
    (congrArg AttributeSlots.pairs hmap.ordered).trans (by decide)
  have hsame : own = atOnce :=
    ((slots_are_an_ordered_map.2 (hcopy.calls _ hrun)).2 (Made.list hatOnce)).2
      (hslots.trans ((congrArg AttributeSlots.pairs (Made.list hatOnce).isOrderedMap.ordered).trans (by decide)).symm)
  refine ⟨inherited, own, hinherited, hrun, hslots, ?_, ?_, hsame ▸ hatOnce⟩
  · exact (hmap.place "class" 1).2 (by rw [hmap.names]; decide)
  · exact (hmap.get_unset "title").2 (by decide)

end IndexedSlots

end BlockTemplates
