/-
The tags in markup. Markup is read one character after the other, and whatever it is, there are tags in it: a `<` begins
a tag wherever it stands in text, and a tag goes on to the first `>` that is not in quotes as part of a value. Of an
opening tag, its name and the names of its attributes are seen, in order.

Main statements: `shows_text`, `shows_opening` and `shows_closing` (what escaped text and the tags of elements are read
as), `Shows.append` (markup is read piece by piece).
-/
import BlockTemplates.Proofs.Rendering.Language

namespace BlockTemplates.Html

open Source

/-! ## Reading markup -/

inductive Tag where
  | opening (name : String) (attributes : List String)
  | closing (name : String)
deriving DecidableEq, Repr

def Tag.name : Tag → String
  | .opening name _ | .closing name => name

/-- the names of its attributes -/
def Tag.attributes : Tag → List String
  | .opening _ attributes => attributes
  | .closing _ => []

/-- where one is in markup, with what has been read of the tag that one is in -/
inductive Position where
  | text
  /-- behind a `<` -/
  | begun
  | closing (name : List Char)
  | opening (name : List Char)
  /-- in an opening tag, behind its name or behind an attribute -/
  | behind (tag : String) (attributes : List String)
  | attribute (tag : String) (attributes : List String) (name : List Char)
  /-- behind the equals sign of an attribute -/
  | equals (tag : String) (attributes : List String)
  | quoted (quote : Char) (tag : String) (attributes : List String)
  /-- in a value without quotes -/
  | bare (tag : String) (attributes : List String)
deriving DecidableEq, Repr

namespace Position

/-- what ends a name, or a value without quotes -/
def isBreak (c : Char) : Bool := c.isWhitespace || c == '>'

/-- behind a break in an opening tag -/
def afterBreak (tag : String) (attributes : List String) (c : Char) : Position × List Tag :=
  if c = '>' then (.text, [.opening tag attributes]) else (.behind tag attributes, [])

/-- one character further, with the tag that ends there -/
def step : Position → Char → Position × List Tag
  | .text, c => (if c = '<' then .begun else .text, [])
  | .begun, c => (if c = '/' then .closing [] else .opening [c], [])
  | .closing name, c => if c = '>' then (.text, [.closing (.ofList name)]) else (.closing (name ++ [c]), [])
  | .opening name, c => if isBreak c then afterBreak (.ofList name) [] c else (.opening (name ++ [c]), [])
  | .behind tag attributes, c => if isBreak c then afterBreak tag attributes c else (.attribute tag attributes [c], [])
  | .attribute tag attributes name, c =>
    if c = '=' then (.equals tag (attributes ++ [.ofList name]), [])
    else if isBreak c then afterBreak tag (attributes ++ [.ofList name]) c
    else (.attribute tag attributes (name ++ [c]), [])
  | .equals tag attributes, c =>
    if c = '"' ∨ c = '\'' then (.quoted c tag attributes, [])
    else if isBreak c then afterBreak tag attributes c
    else (.bare tag attributes, [])
  | .quoted quote tag attributes, c =>
    (if c = quote then .behind tag attributes else .quoted quote tag attributes, [])
  | .bare tag attributes, c => if isBreak c then afterBreak tag attributes c else (.bare tag attributes, [])

/-- where one comes to, with the tags that end on the way -/
def read (p : Position) : List Char → Position × List Tag
  | [] => (p, [])
  | c :: s => (((p.step c).1.read s).1, (p.step c).2 ++ ((p.step c).1.read s).2)

theorem read_append (p : Position) (s t : List Char) :
    p.read (s ++ t) = (((p.read s).1.read t).1, (p.read s).2 ++ ((p.read s).1.read t).2) := by
  induction s generalizing p with
  | nil => simp [read]
  | cons c s ih => simp [read, ih]

/-- from `p` one comes to `q` and meets the end of no tag -/
def Passes (p : Position) (s : List Char) (q : Position) : Prop := p.read s = (q, [])

theorem Passes.append {p q r : Position} {s t : List Char} (hs : p.Passes s q) (ht : q.Passes t r) :
    p.Passes (s ++ t) r := by
  rw [Passes, read_append, hs, ht]
  rfl

theorem passes_nil (p : Position) : p.Passes [] p := rfl

theorem passes_cons {p q r : Position} {c : Char} {s : List Char} (hc : p.step c = (q, [])) (hs : q.Passes s r) :
    p.Passes (c :: s) r := by
  rw [Passes, read, hc, hs]
  rfl

/-- one stays where no character leads elsewhere -/
theorem passes_same {p : Position} {s : List Char} (h : ∀ c ∈ s, p.step c = (p, [])) : p.Passes s p := by
  induction s with
  | nil => exact p.passes_nil
  | cons c s ih =>
    rw [List.forall_mem_cons] at h
    exact passes_cons h.1 (ih h.2)

/-- a name is collected character by character -/
theorem passes_name (within : List Char → Position) {s : List Char}
    (h : ∀ c ∈ s, ∀ name, (within name).step c = (within (name ++ [c]), [])) (name : List Char) :
    (within name).Passes s (within (name ++ s)) := by
  induction s generalizing name with
  | nil =>
    rw [List.append_nil]
    exact passes_nil _
  | cons c s ih =>
    rw [List.forall_mem_cons] at h
    have hs := ih h.2 (name ++ [c])
    rw [List.append_assoc, List.singleton_append] at hs
    exact passes_cons (h.1 name) hs

end Position

/-- the tags in the text, in order -/
def tagSequence (text : String) : List Tag := (Position.text.read text.toList).2

/-- the text has these tags and ends outside of them -/
def Shows (text : String) (tags : List Tag) : Prop := Position.text.read text.toList = (.text, tags)

theorem Shows.tagSequence {text : String} {tags : List Tag} (h : Shows text tags) : tagSequence text = tags :=
  congrArg Prod.snd h

theorem shows_empty : Shows "" [] := rfl

theorem Shows.append {s t : String} {tags tags' : List Tag} (hs : Shows s tags) (ht : Shows t tags') :
    Shows (s ++ t) (tags ++ tags') := by
  rw [Shows, String.toList_append, Position.read_append, hs, ht]

/-! ## Escaped text -/

/-- in escaped text there are no tags -/
theorem shows_text {text : String} (h : Escaped .text text.toList) : Shows text [] := by
  refine Position.passes_same fun c hc => ?_
  have hplain : c ≠ '<' := by
    rintro rfl
    exact h.plain _ hc (by decide)
  simp only [Position.step, if_neg hplain]

/-! ## Tags of elements -/

/-- no character of a name means anything in a tag -/
theorem plain_of_isName {k : NameKind} {name : String} (h : IsName k name) :
    ∀ c ∈ name.toList, Position.isBreak c = false ∧ c ≠ '=' ∧ c ≠ '/' := by
  intro c hc
  have hchar := h.chars c hc
  refine ⟨?_, ?_, ?_⟩
  · unfold Position.isBreak Char.isWhitespace
    simp only [Bool.or_eq_false_iff, beq_eq_false_iff_ne, decide_eq_false_iff_not]
    refine ⟨⟨⟨⟨?_, ?_⟩, ?_⟩, ?_⟩, ?_⟩
    all_goals
      rintro rfl
      exact absurd hchar (by decide)
  · rintro rfl
    exact absurd hchar (by decide)
  · rintro rfl
    exact absurd hchar (by decide)

theorem shows_closing {tag : String} (h : IsName .tag tag) : Shows ("</" ++ tag ++ ">") [.closing tag] := by
  have hname : (Position.closing []).Passes tag.toList (.closing tag.toList) := by
    refine Position.passes_name .closing (fun c hc name => ?_) []
    have hend : c ≠ '>' := by
      rintro rfl
      exact absurd (plain_of_isName h _ hc).1 (by decide)
    simp only [Position.step, if_neg hend]
  have hbegun : Position.text.Passes ("</".toList ++ tag.toList) (.closing tag.toList) :=
    Position.passes_cons rfl (Position.passes_cons rfl hname)
  rw [Shows, String.toList_append, String.toList_append, Position.read_append, hbegun]
  simp [Position.read, Position.step]

/-- one attribute is passed over from its blank to the closing quote -/
theorem passes_attribute {tag name value : String} (attributes : List String) (hn : IsName .attr name)
    (hv : Escaped .value value.toList) :
    (Position.behind tag attributes).Passes (" " ++ name ++ "=\"" ++ value ++ "\"").toList
      (.behind tag (attributes ++ [name])) := by
  have hname : (Position.behind tag attributes).Passes name.toList (.attribute tag attributes name.toList) := by
    have hchars := plain_of_isName hn
    have hne := IsNameText.ne_nil hn
    cases hlist : name.toList with
    | nil => exact absurd hlist hne
    | cons c s =>
      rw [hlist, List.forall_mem_cons] at hchars
      refine Position.passes_cons (q := .attribute tag attributes [c]) ?_ ?_
      · simp [Position.step, hchars.1.1]
      · refine Position.passes_name (.attribute tag attributes) (fun d hd collected => ?_) [c]
        simp [Position.step, hchars.2 d hd]
  have hvalue : (Position.quoted '"' tag (attributes ++ [name])).Passes value.toList
      (.quoted '"' tag (attributes ++ [name])) := by
    refine Position.passes_same fun c hc => ?_
    have hplain : c ≠ '"' := by
      rintro rfl
      exact hv.plain _ hc (by decide)
    simp only [Position.step, if_neg hplain]
  have hequals : (Position.attribute tag attributes name.toList).Passes "=\"".toList
      (.quoted '"' tag (attributes ++ [name])) := by
    simp [Position.Passes, Position.read, Position.step]
  simp only [String.toList_append]
  refine ((((?_ : Position.Passes _ _ (.behind tag attributes)).append hname).append hequals).append hvalue).append ?_
  · simp [Position.Passes, Position.read, Position.step, Position.isBreak, Position.afterBreak]
  · simp [Position.Passes, Position.read, Position.step]

theorem passes_attributes (tag : String) {list : List (String × String)}
    (hn : ∀ name ∈ list.map Prod.fst, IsName .attr name) (hv : ∀ a ∈ list, Escaped .value a.2.toList)
    (attributes : List String) :
    (Position.behind tag attributes).Passes
      (String.join (list.map fun a => " " ++ a.1 ++ "=\"" ++ a.2 ++ "\"")).toList
      (.behind tag (attributes ++ list.map Prod.fst)) := by
  induction list generalizing attributes with
  | nil =>
    rw [List.map_nil, List.map_nil, List.append_nil]
    exact Position.passes_nil _
  | cons a list ih =>
    rw [List.map_cons, List.forall_mem_cons] at hn
    rw [List.forall_mem_cons] at hv
    have hrest := ih hn.2 hv.2 (attributes ++ [a.1])
    rw [List.append_assoc, List.singleton_append] at hrest
    rw [List.map_cons, String.join_cons, String.toList_append]
    exact (passes_attribute attributes hn.1 hv.1).append hrest

theorem passes_tag {tag : String} (h : IsName .tag tag) : Position.begun.Passes tag.toList (.opening tag.toList) := by
  have hchars := plain_of_isName h
  cases hlist : tag.toList with
  | nil => exact absurd hlist (IsNameText.ne_nil h)
  | cons c s =>
    rw [hlist, List.forall_mem_cons] at hchars
    refine Position.passes_cons (q := .opening [c]) ?_ ?_
    · simp only [Position.step, if_neg hchars.1.2.2]
    · refine Position.passes_name .opening (fun d hd collected => ?_) [c]
      simp [Position.step, hchars.2 d hd]

/-- a break ends the name of a tag as it ends an attribute -/
theorem read_opening_of_break {name s : List Char} (h : ∀ c ∈ s.head?, Position.isBreak c = true) (hs : s ≠ []) :
    (Position.opening name).read s = (Position.behind (.ofList name) []).read s := by
  cases s with
  | nil => exact absurd rfl hs
  | cons c s => simp only [Position.read, Position.step, if_pos (h c rfl)]

/-- an opening tag is read with its name and the names of its attributes, whatever their values -/
theorem shows_opening {tag : String} {attributes : List (String × String)} (htag : IsName .tag tag)
    (hnames : ∀ name ∈ attributes.map Prod.fst, IsName .attr name)
    (hvalues : ∀ a ∈ attributes, Escaped .value a.2.toList) :
    Shows (openingText tag attributes) [.opening tag (attributes.map Prod.fst)] := by
  have hbegin : Position.text.Passes ("<" ++ tag).toList (.opening tag.toList) := by
    rw [String.toList_append]
    exact Position.passes_cons rfl (passes_tag htag)
  have hinner := passes_attributes tag hnames hvalues []
  rw [List.nil_append] at hinner
  rw [Shows, openingText, String.append_assoc, String.toList_append, Position.read_append, hbegin]
  dsimp only
  rw [read_opening_of_break ?_ (by simp), String.ofList_toList, String.toList_append, Position.read_append, hinner]
  · simp [Position.read, Position.step, Position.isBreak, Position.afterBreak]
  · cases attributes with
    | nil => simp [Position.isBreak]
    | cons a list => simp [Position.isBreak, String.join_cons, Char.isWhitespace]

example : tagSequence "<img alt=\">\" title><b>" = [.opening "img" ["alt", "title"], .opening "b" []] := by decide

end BlockTemplates.Html
