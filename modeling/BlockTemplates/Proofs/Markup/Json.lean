/-
The JSON form of trees loses nothing. What is written is read back, whatever names, texts and nesting there are: an
absent list is not an empty one, and an absent entry is not an empty name. What is read depends on the components of
objects only, so that fields which are null can be left out, and fields moved or added.

Main statements: `nodes?_nodesToJson` (nodes are read back), `Record.agree_of_components` (what reading depends on),
`Respells.agree` (what a change of the text leaves as it is) and `tree_json`.
-/
import BlockTemplates.Markup.Json

namespace BlockTemplates

open Markup

/-! ## Reading back -/

theorem Json.ofNullable?_nullable {α : Type} {encode : α → Json} {decode : Json → Option α}
    (hback : ∀ a, decode (encode a) = some a) (hnull : decode .null = none) (o : Option α) :
    Json.ofNullable? decode (Json.nullable encode o) = some o := by
  cases o with
  | none => rfl
  | some a =>
    have hdecode := hback a
    change Json.ofNullable? decode (encode a) = _
    cases hencode : encode a with
    | null =>
      rw [hencode, hnull] at hdecode
      contradiction
    | _ =>
      rw [hencode] at hdecode
      rw [Json.ofNullable?, hdecode, Option.map_some]
      simp

theorem Json.ofNullable?_string (o : Option String) :
    Json.ofNullable? Json.string? (Json.nullable .string o) = some o := by
  have hback (s : String) : Json.string? (.string s) = some s := rfl
  exact Json.ofNullable?_nullable hback rfl o

theorem mapM_of_forall {α : Type} {encode : α → Json} {decode : Json → Option α}
    (hback : ∀ a, decode (encode a) = some a) (as : List α) : (as.map encode).mapM decode = some as := by
  induction as with
  | nil => rfl
  | cons a as ih => simp [hback, ih]

namespace Markup

theorem SuperCall.ofJson?_toJson (c : SuperCall) : SuperCall.ofJson? c.toJson = some c := by
  simp [ofJson?, toJson, record?, Json.ofNullable?_string]

theorem Attribute.ofJson?_toJson (a : Attribute) : Attribute.ofJson? a.toJson = some a := by
  simp [ofJson?, toJson, record?, Json.string?, List.lookup_cons, Json.ofNullable?_string]

theorem Attributes.ofJson?_toJson (a : Attributes) : Attributes.ofJson? a.toJson = some a := by
  have hcall := Json.ofNullable?_nullable SuperCall.ofJson?_toJson rfl a.superCall
  have hlist := mapM_of_forall Attribute.ofJson?_toJson a.list
  simp [ofJson?, toJson, record?, Json.array?, List.lookup_cons, hcall, hlist]

theorem names?_namesToJson (names : List (Option String)) : names? (namesToJson names) = some names := by
  simp [names?, namesToJson, Json.array?, mapM_of_forall Json.ofNullable?_string names]

/-- the components of an element other than its content -/
theorem element?_components (helper : Bool) (tag : Option String) (names : Option (List (Option String)))
    (attributes : Option Attributes) (content : Option (List Node)) :
    element? [.bool helper, Json.nullable .string tag, Json.nullable namesToJson names,
      Json.nullable Attributes.toJson attributes] content = some ⟨helper, tag, names, attributes, content⟩ := by
  have hnames := Json.ofNullable?_nullable names?_namesToJson rfl names
  have hattributes := Json.ofNullable?_nullable Attributes.ofJson?_toJson rfl attributes
  simp [element?, Json.bool?, Json.ofNullable?_string, hnames, hattributes]

/-- nodes are read back, at the top level and inside elements -/
theorem nodes?_nodesToJson (inElement : Bool) (ns : List Node) : nodes? inElement (nodesToJson ns) = some ns := by
  induction ns using nodes_induction generalizing inElement with
  | nil => simp [nodesToJson, nodes?]
  | text value ns ih =>
    simp [nodesToJson, nodes?, Node.toJson, Node.ofJson?, NodeKind.ofJson?, leaf?, record?, Json.string?,
      List.lookup_cons, ih]
  | comment value multiline ns ih =>
    simp [nodesToJson, nodes?, Node.toJson, Node.ofJson?, NodeKind.ofJson?, leaf?, record?, Json.string?, Json.bool?,
      List.lookup_cons, ih]
  | superCall call ns ih =>
    simp [nodesToJson, nodes?, Node.toJson, Node.ofJson?, NodeKind.ofJson?, leaf?, SuperCall.ofJson?, record?,
      List.lookup_cons, Json.ofNullable?_string, ih]
  | element e ns ihc ih =>
    obtain ⟨helper, tag, names, attributes, content⟩ := e
    cases content with
    | none =>
      simp [nodesToJson, nodes?, Node.toJson, Node.ofJson?, NodeKind.ofJson?, elementFields, contentField?, content?,
        record?, elementComponents, List.lookup_cons, element?_components, ih]
    | some content =>
      have hcontent : nodes? true (nodesToJson content) = some content := ihc true
      simp [nodesToJson, nodes?, Node.toJson, Node.ofJson?, NodeKind.ofJson?, elementFields, contentField?, content?,
        record?, elementComponents, List.lookup_cons, element?_components, hcontent, ih]

/-- a document is read back -/
theorem Block.ofJson?_toJson (b : Block) : Block.ofJson? b.toJson = some b := by
  simp [ofJson?, toJson, record?, Json.array?, List.lookup_cons, Json.ofNullable?_string, nodes?_nodesToJson]

end Markup

/-! ## Components of objects -/

/-- the component of an object, null for a field that is missing -/
def component (name : String) (fields : List (String × Json)) : Json := (fields.lookup name).getD .null

/-- no two fields have the same name -/
def Distinct (fields : List (String × Json)) : Prop := (fields.map Prod.fst).Nodup

section

variable {name other : String} {value : Json} {before after : List (String × Json)}

theorem component_insert_of_ne (h : other ≠ name) :
    component other (before ++ (name, value) :: after) = component other (before ++ after) := by
  unfold component
  rw [List.lookup_append, List.lookup_append, List.lookup_cons, beq_eq_false_iff_ne.2 h]

theorem component_insert (h : Distinct (before ++ (name, value) :: after)) :
    component name (before ++ (name, value) :: after) = value := by
  have hbefore : before.lookup name = none := by
    rw [List.lookup_eq_none_iff]
    intro p hp
    unfold Distinct at h
    rw [List.map_append, List.nodup_append] at h
    exact bne_iff_ne.2 (Ne.symm (h.2.2 p.1 (List.mem_map_of_mem hp) name (by simp)))
  unfold component
  rw [List.lookup_append, hbefore, Option.none_or, List.lookup_cons, beq_self_eq_true, Option.getD_some]

theorem component_of_not_mem {fields : List (String × Json)} (h : name ∉ fields.map Prod.fst) :
    component name fields = .null := by
  have hnone : fields.lookup name = none := by
    rw [List.lookup_eq_none_iff]
    intro p hp
    refine bne_iff_ne.2 fun heq => h ?_
    exact heq ▸ List.mem_map_of_mem hp
  rw [component, hnone, Option.getD_none]

/-- a field that is null is as good as none -/
theorem component_erase_null (h : Distinct (before ++ (name, .null) :: after)) (other : String) :
    component other (before ++ after) = component other (before ++ (name, .null) :: after) := by
  by_cases hname : other = name
  · subst hname
    rw [component_insert h]
    apply component_of_not_mem
    unfold Distinct at h
    rw [List.map_append, List.map_cons, List.perm_middle.nodup_iff, List.nodup_cons] at h
    rw [List.map_append]
    exact h.1
  · exact (component_insert_of_ne hname).symm

/-- the order of fields with different names does not matter -/
theorem component_perm {fields fields' : List (String × Json)} (hp : fields.Perm fields') (h : Distinct fields)
    (name : String) : component name fields' = component name fields := by
  unfold component
  congr 1
  unfold Distinct at h
  induction hp with
  | nil => rfl
  | cons p _ ih =>
    rw [List.map_cons, List.nodup_cons] at h
    rw [List.lookup_cons, List.lookup_cons, ih h.2]
  | swap p q ps =>
    obtain ⟨m, v⟩ := p
    obtain ⟨n, w⟩ := q
    have hne : m ≠ n := by
      rintro rfl
      simp at h
    simp only [List.lookup_cons]
    by_cases hm : name = m
    · subst hm
      simp [beq_eq_false_iff_ne.2 hne]
    · simp [beq_eq_false_iff_ne.2 hm]
  | trans hp _ ih ih' => rw [ih' ((hp.map Prod.fst).nodup_iff.1 h), ih h]

end

/-! ## Records -/

/-- the kinds of objects that a tree is made of -/
inductive RecordKind where
  | block
  | node
  | attributes
  | pair
  | superCall

/-- what a field holds: something without objects in it, an object or null, or an array of objects or null -/
inductive Holding where
  | value
  | one (kind : RecordKind)
  | many (kind : RecordKind)

/-- the fields of an element besides its kind -/
def elementHoldings : List (String × Holding) :=
  [("isHelper", .value), ("tagName", .value), ("names", .value), ("attributes", .one .attributes),
   ("content", .many .node)]

/-- the fields that an object is known to have; those of a node depend on its own kind -/
def RecordKind.known (kind : RecordKind) (fields : List (String × Json)) : List (String × Holding) :=
  match kind with
  | .block => [("name", .value), ("content", .many .node)]
  | .node =>
    ("nodeType", .value) ::
      match NodeKind.ofJson? true (component "nodeType" fields) with
      | some .element => elementHoldings
      | some .text => [("value", .value)]
      | some .comment => [("value", .value), ("multiline", .value)]
      | some .superCall => [("elementName", .value)]
      | none => []
  | .attributes => [("superCall", .one .superCall), ("list", .many .pair)]
  | .pair => [("name", .value), ("value", .value)]
  | .superCall => [("elementName", .value)]

/-- two values are read as the same -/
def RecordKind.Agree (kind : RecordKind) (j j' : Json) : Prop :=
  match kind with
  | .block => Block.ofJson? j' = Block.ofJson? j
  | .node => ∀ inElement, Node.ofJson? inElement j' = Node.ofJson? inElement j
  | .attributes => Attributes.ofJson? j' = Attributes.ofJson? j
  | .pair => Attribute.ofJson? j' = Attribute.ofJson? j
  | .superCall => SuperCall.ofJson? j' = SuperCall.ofJson? j

/-- two contents of a field are the same but for one object that is read as the same -/
inductive Holding.Agree : Holding → Json → Json → Prop
  | same {holding : Holding} (j : Json) : Agree holding j j
  | one {kind : RecordKind} {fields fields' : List (String × Json)} :
    kind.Agree (.object fields) (.object fields') → Agree (.one kind) (.object fields) (.object fields')
  | many {kind : RecordKind} {j j' : Json} (before after : List Json) :
    kind.Agree j j' → Agree (.many kind) (.array (before ++ j :: after)) (.array (before ++ j' :: after))

namespace Holding.Agree

variable {j j' : Json}

theorem eq_of_value (h : Holding.value.Agree j j') : j' = j := by
  cases h with
  | same => rfl

theorem superCall (h : (Holding.one .superCall).Agree j j') :
    Json.ofNullable? SuperCall.ofJson? j' = Json.ofNullable? SuperCall.ofJson? j := by
  cases h with
  | same => rfl
  | one h => exact congrArg (Option.map some) h

theorem attributes (h : (Holding.one .attributes).Agree j j') :
    Json.ofNullable? Attributes.ofJson? j' = Json.ofNullable? Attributes.ofJson? j := by
  cases h with
  | same => rfl
  | one h => exact congrArg (Option.map some) h

theorem list (h : (Holding.many .pair).Agree j j') :
    (j'.array?.bind fun items => items.mapM Attribute.ofJson?) =
      j.array?.bind fun items => items.mapM Attribute.ofJson? := by
  cases h with
  | same => rfl
  | many before after h =>
    have hitem : Attribute.ofJson? _ = Attribute.ofJson? _ := h
    simp [Json.array?, List.mapM_append, List.mapM_cons, hitem]

theorem nodes?_congr {inElement : Bool} (before after : List Json)
    (h : Node.ofJson? inElement j' = Node.ofJson? inElement j) :
    nodes? inElement (before ++ j' :: after) = nodes? inElement (before ++ j :: after) := by
  induction before with
  | nil => simp only [List.nil_append, nodes?, h]
  | cons item before ih => simp only [List.cons_append, nodes?, ih]

theorem nodes (h : (Holding.many .node).Agree j j') (inElement : Bool) :
    (j'.array?.bind fun items => nodes? inElement items) = j.array?.bind fun items => nodes? inElement items := by
  cases h with
  | same => rfl
  | many before after h => exact nodes?_congr before after (h inElement)

theorem content (h : (Holding.many .node).Agree j j') (inElement : Bool) :
    content? inElement j' = content? inElement j := by
  cases h with
  | same => rfl
  | many before after h =>
    simp only [content?]
    exact congrArg (Option.map some) (nodes?_congr before after (h inElement))

end Holding.Agree

/-! ## Reading by components -/

theorem contentField?_eq (inElement : Bool) (fields : List (String × Json)) :
    contentField? inElement fields = content? inElement (component "content" fields) := by
  induction fields with
  | nil => simp [contentField?, component, content?]
  | cons p fields ih =>
    obtain ⟨name, j⟩ := p
    unfold component at ih ⊢
    by_cases hname : name = "content"
    · subst hname
      simp [contentField?]
    · simp [contentField?, hname, ih, List.lookup_cons, beq_eq_false_iff_ne.2 (Ne.symm hname)]

section

variable (fields : List (String × Json))

theorem record?_object (names : List String) :
    record? names (.object fields) = some (names.map fun name => component name fields) := rfl

theorem Markup.Block.ofJson?_object :
    Block.ofJson? (.object fields) =
      (Json.ofNullable? Json.string? (component "name" fields)).bind fun name =>
        ((component "content" fields).array?.bind fun items => nodes? false items).bind fun content =>
          some ⟨name, content⟩ := by
  simp [ofJson?, record?_object, Option.bind_assoc]

theorem Markup.SuperCall.ofJson?_object :
    SuperCall.ofJson? (.object fields) =
      (Json.ofNullable? Json.string? (component "elementName" fields)).bind fun name => some ⟨name⟩ := by
  simp [ofJson?, record?_object]

theorem Markup.Attribute.ofJson?_object :
    Attribute.ofJson? (.object fields) =
      (component "name" fields).string?.bind fun name =>
        (Json.ofNullable? Json.string? (component "value" fields)).bind fun value => some ⟨name, value⟩ := by
  simp [ofJson?, record?_object]

theorem Markup.Attributes.ofJson?_object :
    Attributes.ofJson? (.object fields) =
      (Json.ofNullable? SuperCall.ofJson? (component "superCall" fields)).bind fun superCall =>
        ((component "list" fields).array?.bind fun items => items.mapM Attribute.ofJson?).bind fun list =>
          some ⟨superCall, list⟩ := by
  simp [ofJson?, record?_object, Option.bind_assoc]

theorem Markup.Node.ofJson?_object (inElement : Bool) :
    Node.ofJson? inElement (.object fields) =
      match NodeKind.ofJson? inElement (component "nodeType" fields) with
      | some .element =>
        (content? true (component "content" fields)).bind fun content =>
          (element? (elementComponents.map fun name => component name fields) content).bind fun e => some (.element e)
      | some kind => leaf? kind (.object fields)
      | none => none := by
  rw [ofJson?, contentField?_eq, record?_object]
  change (match NodeKind.ofJson? inElement (component "nodeType" fields) with
    | some .element => _
    | some kind => _
    | none => _) = _
  cases NodeKind.ofJson? inElement (component "nodeType" fields) with
  | none => rfl
  | some kind =>
    cases kind with
    | element => simp
    | text => rfl
    | comment => rfl
    | superCall => rfl

theorem element?_object (content : Option (List Node)) :
    element? (elementComponents.map fun name => component name fields) content =
      (component "isHelper" fields).bool?.bind fun helper =>
        (Json.ofNullable? Json.string? (component "tagName" fields)).bind fun tag =>
          (Json.ofNullable? names? (component "names" fields)).bind fun names =>
            (Json.ofNullable? Attributes.ofJson? (component "attributes" fields)).bind fun attributes =>
              some ⟨helper, tag, names, attributes, content⟩ := by
  simp [element?, elementComponents]

theorem leaf?_text :
    leaf? .text (.object fields) = (component "value" fields).string?.bind fun value => some (.text value) := by
  simp [leaf?, record?_object]

theorem leaf?_comment :
    leaf? .comment (.object fields) =
      (component "value" fields).string?.bind fun value =>
        (component "multiline" fields).bool?.bind fun multiline => some (.comment value multiline) := by
  simp [leaf?, record?_object]

theorem leaf?_superCall :
    leaf? .superCall (.object fields) =
      (SuperCall.ofJson? (.object fields)).bind fun call => some (.superCall call) := by
  simp [leaf?]

end

/-- kinds at the top level are kinds inside elements -/
theorem kind_inElement {inElement : Bool} {j : Json} {kind : NodeKind} (h : NodeKind.ofJson? inElement j = some kind) :
    NodeKind.ofJson? true j = some kind := by
  cases inElement with
  | true => exact h
  | false =>
    unfold NodeKind.ofJson? at h ⊢
    split at h <;> simp_all

/-- objects whose known components are read as the same are read as the same -/
theorem RecordKind.agree_of_components {kind : RecordKind} {fields fields' : List (String × Json)}
    (h : ∀ name holding, (kind.known fields).lookup name = some holding →
      holding.Agree (component name fields) (component name fields')) :
    kind.Agree (.object fields) (.object fields') := by
  cases kind with
  | block =>
    have hname := (h "name" .value rfl).eq_of_value
    have hcontent := (h "content" (.many .node) rfl).nodes false
    change Block.ofJson? _ = Block.ofJson? _
    rw [Block.ofJson?_object, Block.ofJson?_object, hname, hcontent]
  | node =>
    have hkind := (h "nodeType" .value rfl).eq_of_value
    intro inElement
    rw [Node.ofJson?_object, Node.ofJson?_object, hkind]
    cases hread : NodeKind.ofJson? inElement (component "nodeType" fields) with
    | none => rfl
    | some kind =>
      simp only [known, kind_inElement hread] at h
      cases kind with
      | element =>
        have hhelper := (h "isHelper" .value rfl).eq_of_value
        have htag := (h "tagName" .value rfl).eq_of_value
        have hnames := (h "names" .value rfl).eq_of_value
        have hattributes := (h "attributes" (.one .attributes) rfl).attributes
        have hcontent := (h "content" (.many .node) rfl).content true
        simp only [element?_object, hhelper, htag, hnames, hattributes, hcontent]
      | text =>
        have hvalue := (h "value" .value rfl).eq_of_value
        simp only [leaf?_text, hvalue]
      | comment =>
        have hvalue := (h "value" .value rfl).eq_of_value
        have hmultiline := (h "multiline" .value rfl).eq_of_value
        simp only [leaf?_comment, hvalue, hmultiline]
      | superCall =>
        have hname := (h "elementName" .value rfl).eq_of_value
        simp only [leaf?_superCall, SuperCall.ofJson?_object, hname]
  | attributes =>
    have hcall := (h "superCall" (.one .superCall) rfl).superCall
    have hlist := (h "list" (.many .pair) rfl).list
    change Attributes.ofJson? _ = Attributes.ofJson? _
    rw [Attributes.ofJson?_object, Attributes.ofJson?_object, hcall, hlist]
  | pair =>
    have hname := (h "name" .value rfl).eq_of_value
    have hvalue := (h "value" .value rfl).eq_of_value
    change Attribute.ofJson? _ = Attribute.ofJson? _
    rw [Attribute.ofJson?_object, Attribute.ofJson?_object, hname, hvalue]
  | superCall =>
    have hname := (h "elementName" .value rfl).eq_of_value
    change SuperCall.ofJson? _ = SuperCall.ofJson? _
    rw [SuperCall.ofJson?_object, SuperCall.ofJson?_object, hname]

/-! ## Changes that do not matter -/

/-- one change, at any depth, of what a field holds: a field that is null is left out, fields are put in another order,
or a field is added that the object is not known to have -/
inductive Respells : Holding → Json → Json → Prop
  | drop {kind name before after} :
    Distinct (before ++ (name, .null) :: after) →
      Respells (.one kind) (.object (before ++ (name, .null) :: after)) (.object (before ++ after))
  | reorder {kind fields fields'} :
    Distinct fields → fields.Perm fields' → Respells (.one kind) (.object fields) (.object fields')
  | add {kind name value before after} :
    (kind.known (before ++ after)).lookup name = none →
      Respells (.one kind) (.object (before ++ after)) (.object (before ++ (name, value) :: after))
  | field {kind name holding j j' before after} :
    Distinct (before ++ (name, j) :: after) → (kind.known (before ++ (name, j) :: after)).lookup name = some holding →
      Respells holding j j' →
      Respells (.one kind) (.object (before ++ (name, j) :: after)) (.object (before ++ (name, j') :: after))
  | item {kind j j' before after} :
    Respells (.one kind) j j' → Respells (.many kind) (.array (before ++ j :: after)) (.array (before ++ j' :: after))

/-- objects are changed to objects, and those are read as the same -/
theorem Holding.Agree.one_iff {kind : RecordKind} {j j' : Json} (h : (Holding.one kind).Agree j j') :
    kind.Agree j j' := by
  cases h with
  | same => cases kind <;> simp [RecordKind.Agree]
  | one h => exact h

theorem distinct_replace {name : String} {j j' : Json} {before after : List (String × Json)}
    (h : Distinct (before ++ (name, j) :: after)) : Distinct (before ++ (name, j') :: after) := by
  unfold Distinct at h ⊢
  simpa using h

/-- what a change leaves as it is -/
theorem Respells.agree {holding : Holding} {j j' : Json} (h : Respells holding j j') : holding.Agree j j' := by
  induction h with
  | drop hdistinct =>
    refine .one (RecordKind.agree_of_components fun name holding _ => ?_)
    rw [component_erase_null hdistinct]
    exact .same _
  | reorder hdistinct hperm =>
    refine .one (RecordKind.agree_of_components fun name holding _ => ?_)
    rw [component_perm hperm hdistinct]
    exact .same _
  | @add kind name value before after hunknown =>
    refine .one (RecordKind.agree_of_components fun name' holding hknown => ?_)
    have hne : name' ≠ name := by
      rintro rfl
      simp [hunknown] at hknown
    rw [component_insert_of_ne hne]
    exact .same _
  | @field kind name holding j j' before after hdistinct hknown _ ih =>
    refine .one (RecordKind.agree_of_components fun name' holding' hknown' => ?_)
    by_cases hname : name' = name
    · subst hname
      cases hknown.symm.trans hknown'
      rw [component_insert hdistinct, component_insert (distinct_replace hdistinct)]
      exact ih
    · rw [component_insert_of_ne hname, component_insert_of_ne hname]
      exact .same _
  | item _ ih => exact .many _ _ ih.one_iff

/-- any number of changes, one after the other -/
inductive Respelled (holding : Holding) : Json → Json → Prop
  | same {j} : Respelled holding j j
  | change {j j₁ j'} : Respells holding j j₁ → Respelled holding j₁ j' → Respelled holding j j'

theorem Respelled.ofJson?_eq {j j' : Json} (h : Respelled (.one .block) j j') : Block.ofJson? j' = Block.ofJson? j := by
  induction h with
  | same => rfl
  | change hchange _ ih => exact ih.trans hchange.agree.one_iff

/-- **JSON loses nothing.** Every tree is read back from its JSON form, so that different trees have different forms. It
is still read back after any number of changes that leave out a field which is null, put fields in another order or add
a field that its object is not known to have, at any depth; to what any value is read as, such changes make no
difference. -/
theorem tree_json :
    (∀ b : Block, Block.ofJson? b.toJson = some b) ∧ (∀ b b' : Block, b.toJson = b'.toJson → b = b') ∧
      (∀ (b : Block) j, Respelled (.one .block) b.toJson j → Block.ofJson? j = some b) ∧
      ∀ j j', Respelled (.one .block) j j' → Block.ofJson? j' = Block.ofJson? j := by
  refine ⟨Block.ofJson?_toJson, ?_, ?_, fun _ _ => Respelled.ofJson?_eq⟩
  · intro b b' h
    have hback := b.ofJson?_toJson
    rw [h, b'.ofJson?_toJson, Option.some.injEq] at hback
    exact hback.symm
  · intro b j h
    rw [h.ofJson?_eq, b.ofJson?_toJson]

/-- an element that contains nothing, with an absent name and an empty one -/
def sparse : Block where
  name := none
  content := [.element ⟨false, none, some [none, some ""], none, some []⟩]

/-- its JSON form without two fields that are null, with a field more and its kind at the end -/
def sparseRespelled : Json :=
  .object [("content", .array [.object [("note", .bool true), ("isHelper", .bool false),
    ("names", .array [.null, .string ""]), ("attributes", .null), ("content", .array []),
    ("nodeType", .string "Element")]])]

theorem sparse_is_read_back :
    Respelled (.one .block) sparse.toJson sparseRespelled ∧ Block.ofJson? sparseRespelled = some sparse := by
  let kind : String × Json := ("nodeType", .string "Element")
  let helper : String × Json := ("isHelper", .bool false)
  let rest : List (String × Json) :=
    [("names", .array [.null, .string ""]), ("attributes", .null), ("content", .array [])]
  have inContent {j j' : Json} (h : Respells (.one .node) j j') :
      Respells (.one .block) (.object [("content", .array [j])]) (.object [("content", .array [j'])]) := by
    have hitem := @Respells.item .node j j' [] [] h
    exact @Respells.field .block "content" (.many .node) _ _ [] [] (by simp [Distinct]) rfl hitem
  have hrespelled : Respelled (.one .block) sparse.toJson sparseRespelled := by
    refine .change (@Respells.drop .block "name" [] [("content", _)] (by simp [Distinct])) ?_
    refine .change (inContent (@Respells.drop .node "tagName" [kind, helper] rest ?_)) ?_
    · simp [Distinct, kind, helper, rest]
    refine .change (inContent (@Respells.reorder .node (kind :: helper :: rest) (helper :: rest ++ [kind]) ?_ ?_)) ?_
    · simp [Distinct, kind, helper, rest]
    · exact (List.perm_append_singleton kind (helper :: rest)).symm
    · exact .change (inContent (@Respells.add .node "note" (.bool true) [] (helper :: rest ++ [kind]) (by rfl))) .same
  obtain ⟨-, -, hback, -⟩ := tree_json
  exact ⟨hrespelled, hback sparse sparseRespelled hrespelled⟩

end BlockTemplates
