/-
The language of rendered markup. In text and in the values of attributes, what would be markup is escaped. Elements are
nested: each has the same tag at both ends, and what stands in between is again in the language; only tags that close
themselves stand alone. No attribute is given twice.

Main statements: `escapeChars_escaped` (what escaping gives is escaped) and `Nested.append` (markup stays nested when
more of it follows).
-/
import BlockTemplates.Html.Escape
import BlockTemplates.Html.SelfClosing
import BlockTemplates.Proofs.Layout.Words

namespace BlockTemplates.Html

open Source

/-! ## Escaped text -/

/-- characters that do not stand as they are -/
def reserved : Place → List Char
  | .text => ['<', '>']
  | .value => ['<', '>', '"', '\'']

/-- what is written in place of a character that is not kept -/
def IsEntity (place : Place) (e : List Char) : Prop := ∃ c, e = entity place c ∧ e ≠ [c]

/-- no character is reserved, and every ampersand begins an entity -/
structure Escaped (place : Place) (s : List Char) : Prop where
  plain : ∀ c ∈ s, c ∉ reserved place
  ampersand : ∀ r, '&' :: r <:+ s → ∃ e, IsEntity place e ∧ e <+: '&' :: r

theorem escaped_nil (place : Place) : Escaped place [] := ⟨by simp, by simp⟩

theorem Escaped.append {place : Place} {s t : List Char} (hs : Escaped place s) (ht : Escaped place t) :
    Escaped place (s ++ t) where
  plain c hc := by
    rcases List.mem_append.1 hc with hc | hc
    · exact hs.plain c hc
    · exact ht.plain c hc
  ampersand r hr := by
    obtain ⟨before, hr⟩ := hr
    rcases List.append_eq_append_iff.1 hr with ⟨_ | ⟨c, r'⟩, hsplit, hrest⟩ | ⟨between, -, hsplit⟩
    · exact ht.ampersand r (hrest ▸ List.suffix_rfl)
    · obtain ⟨rfl, rfl⟩ := List.cons.inj hrest
      obtain ⟨e, he, hprefix⟩ := hs.ampersand r' ⟨before, hsplit.symm⟩
      exact ⟨e, he, hprefix.trans (List.prefix_append _ t)⟩
    · exact ht.ampersand r ⟨between, hsplit.symm⟩

theorem escaped_of_plain {place : Place} {s : List Char} (h : ∀ c ∈ s, c ≠ '&' ∧ c ∉ reserved place) :
    Escaped place s where
  plain c hc := (h c hc).2
  ampersand _ hr := absurd rfl (h '&' (hr.subset List.mem_cons_self)).1

/-- an entity is escaped: it begins with its only ampersand -/
theorem escaped_of_isEntity {place : Place} {s : List Char} (h : IsEntity place ('&' :: s))
    (hs : ∀ c ∈ s, c ≠ '&' ∧ c ∉ reserved place) : Escaped place ('&' :: s) where
  plain c hc := by
    rcases List.mem_cons.1 hc with rfl | hc
    · cases place <;> decide
    · exact (hs c hc).2
  ampersand r hr := by
    rcases List.suffix_cons_iff.1 hr with hr | hr
    · exact ⟨_, h, hr ▸ List.prefix_rfl⟩
    · exact absurd rfl (hs '&' (hr.subset List.mem_cons_self)).1

theorem escaped_entity (place : Place) (c : Char) : Escaped place (entity place c) := by
  by_cases hkept : entity place c = [c]
  · rw [hkept]
    apply escaped_of_plain
    intro d hd
    obtain rfl := List.mem_singleton.1 hd
    constructor
    · rintro rfl
      cases place <;> cases hkept
    · intro hd
      cases place with
      | text =>
        simp only [reserved, List.mem_cons, List.not_mem_nil, or_false] at hd
        rcases hd with rfl | rfl <;> cases hkept
      | value =>
        simp only [reserved, List.mem_cons, List.not_mem_nil, or_false] at hd
        rcases hd with rfl | rfl | rfl | rfl <;> cases hkept
  · have hentity : IsEntity place (entity place c) := ⟨c, rfl, hkept⟩
    unfold entity at hentity hkept ⊢
    split at hkept
    all_goals first
      | exact absurd rfl hkept
      | exact escaped_of_isEntity hentity (by cases place <;> simp [reserved])
      | exact escaped_of_isEntity hentity (by simp [reserved])

/-- what escaping gives is escaped -/
theorem escapeChars_escaped (place : Place) (s : List Char) : Escaped place (escapeChars place s) := by
  induction s with
  | nil => exact escaped_nil place
  | cons c s ih => exact (escaped_entity place c).append ih

theorem escaped_toList_append {place : Place} {s t : String} (hs : Escaped place s.toList)
    (ht : Escaped place t.toList) : Escaped place (s ++ t).toList := by
  rw [String.toList_append]
  exact hs.append ht

theorem escaped_escape (place : Place) (s : String) : Escaped place (escape place s).toList := by
  unfold escape
  rw [String.toList_ofList]
  exact escapeChars_escaped place s.toList

theorem escaped_space : Escaped .value " ".toList := escaped_of_plain (by simp [reserved])

theorem escaped_intercalate {place : Place} {separator : String} (hs : Escaped place separator.toList)
    {tokens : List String} (ht : ∀ token ∈ tokens, Escaped place token.toList) :
    Escaped place (separator.intercalate tokens).toList := by
  induction tokens with
  | nil => exact escaped_nil _
  | cons token tokens ih =>
    rw [List.forall_mem_cons] at ht
    cases tokens with
    | nil => simpa using ht.1
    | cons token' tokens =>
      rw [String.intercalate_cons_cons]
      exact escaped_toList_append (escaped_toList_append ht.1 hs) (ih ht.2)

/-! ## Elements -/

/-- an opening tag with its attributes, each with its value -/
def openingText (tag : String) (attributes : List (String × String)) : String :=
  "<" ++ tag ++ String.join (attributes.map fun a => " " ++ a.1 ++ "=\"" ++ a.2 ++ "\"") ++ ">"

/-- attributes have names, no two the same, and escaped values -/
structure AttributesSound (attributes : List (String × String)) : Prop where
  distinct : (attributes.map Prod.fst).Nodup
  names : ∀ name ∈ attributes.map Prod.fst, IsName .attr name
  values : ∀ a ∈ attributes, Escaped .value a.2.toList

/-- markup of text and elements -/
inductive Nested : String → Prop
  | done : Nested ""
  | text {value rest} : Escaped .text value.toList → Nested rest → Nested (value ++ rest)
  | element {tag attributes body rest} : IsName .tag tag → AttributesSound attributes → Nested body → Nested rest →
    Nested (openingText tag attributes ++ body ++ ("</" ++ tag ++ ">") ++ rest)
  | lone {tag attributes rest} : isSelfClosing tag = true → IsName .tag tag → AttributesSound attributes → Nested rest →
    Nested (openingText tag attributes ++ rest)

theorem Nested.append {s t : String} (hs : Nested s) (ht : Nested t) : Nested (s ++ t) := by
  induction hs with
  | done => simpa using ht
  | text hvalue _ ih =>
    rw [String.append_assoc]
    exact .text hvalue ih
  | element htag hattributes hbody _ _ ih =>
    rw [String.append_assoc]
    exact .element htag hattributes hbody ih
  | lone hclosing htag hattributes _ ih =>
    rw [String.append_assoc]
    exact .lone hclosing htag hattributes ih

end BlockTemplates.Html
