/-
JSON texts. A value is a row of tokens, and a text of the value has these tokens in their order, with blanks around them
or not, and with any of the escapes in its strings. So a value has many texts, but a text is that of one value only. What
the printer writes is a text of its value, and the tree of every block can be printed.

Numbers have no texts here, because no tree holds one, and no pairs of escapes stand for one character.

Main statements: `tokens_unique` (a row of tokens is that of one value), `IsText.unique` and `pretty_isText`.
-/
import BlockTemplates.Json.Printer
import BlockTemplates.Markup.Json
import BlockTemplates.Proofs.Layout.Literals
import BlockTemplates.Proofs.Text.Items

namespace BlockTemplates

open Source Text

namespace Json

/-! ## Tokens -/

inductive Token where
  /-- a bracket, a comma or a colon -/
  | mark (c : Char)
  | null
  | bool (value : Bool)
  | number (text : String)
  | string (value : String)

mutual

/-- the tokens of a value -/
def tokens : Json → List Token
  | .null => [.null]
  | .bool b => [.bool b]
  | .number text => [.number text]
  | .string s => [.string s]
  | .array js => .mark '[' :: itemTokens js
  | .object fields => .mark '\x7b' :: fieldTokens fields

/-- the items of an array, and the bracket that closes it -/
def itemTokens : List Json → List Token
  | [] => [.mark ']']
  | j :: js => tokens j ++ itemTokensBehind js

/-- the same behind another item -/
def itemTokensBehind : List Json → List Token
  | [] => [.mark ']']
  | j :: js => .mark ',' :: (tokens j ++ itemTokensBehind js)

def fieldTokens : List (String × Json) → List Token
  | [] => [.mark '\x7d']
  | (name, j) :: fields => .string name :: .mark ':' :: (tokens j ++ fieldTokensBehind fields)

def fieldTokensBehind : List (String × Json) → List Token
  | [] => [.mark '\x7d']
  | (name, j) :: fields => .mark ',' :: .string name :: .mark ':' :: (tokens j ++ fieldTokensBehind fields)

end

/-- no value begins with what closes an array -/
theorem tokens_ne_closing (j : Json) (r r' : List Token) : tokens j ++ r ≠ .mark ']' :: r' := by
  cases j <;> simp [tokens]

mutual

/-- a row of tokens begins with those of one value at most -/
theorem tokens_unique {j j' : Json} {r r' : List Token} (h : tokens j ++ r = tokens j' ++ r') : j = j' ∧ r = r' := by
  cases j with
  | array js =>
    cases j' with
    | array js' =>
      simp only [tokens, List.cons_append, List.cons.injEq, true_and] at h
      cases js with
      | nil =>
        cases js' with
        | nil => simpa [itemTokens] using h
        | cons j' js' =>
          simp only [itemTokens, List.append_assoc] at h
          exact absurd h.symm (tokens_ne_closing j' _ _)
      | cons j js =>
        cases js' with
        | nil =>
          simp only [itemTokens, List.append_assoc] at h
          exact absurd h (tokens_ne_closing j _ _)
        | cons j' js' =>
          simp only [itemTokens, List.append_assoc] at h
          obtain ⟨hj, hbehind⟩ := tokens_unique h
          obtain ⟨hjs, hr⟩ := itemTokensBehind_unique hbehind
          exact ⟨by rw [hj, hjs], hr⟩
    | _ => simp [tokens] at h
  | object fields =>
    cases j' with
    | object fields' =>
      simp only [tokens, List.cons_append, List.cons.injEq, true_and] at h
      cases fields with
      | nil =>
        cases fields' with
        | nil => simpa [fieldTokens] using h
        | cons p' fields' => simp [fieldTokens] at h
      | cons p fields =>
        obtain ⟨name, j⟩ := p
        cases fields' with
        | nil => simp [fieldTokens] at h
        | cons p' fields' =>
          simp only [fieldTokens, List.cons_append, List.append_assoc, List.cons.injEq, true_and,
            Token.string.injEq] at h
          obtain ⟨hj, hbehind⟩ := tokens_unique h.2
          obtain ⟨hfields, hr⟩ := fieldTokensBehind_unique hbehind
          exact ⟨by rw [h.1, hj, hfields], hr⟩
    | _ => simp [tokens] at h
  | _ => cases j' <;> simp_all [tokens]

theorem itemTokensBehind_unique {js js' : List Json} {r r' : List Token}
    (h : itemTokensBehind js ++ r = itemTokensBehind js' ++ r') : js = js' ∧ r = r' := by
  cases js with
  | nil =>
    cases js' with
    | nil => simpa [itemTokensBehind] using h
    | cons j' js' => simp [itemTokensBehind] at h
  | cons j js =>
    cases js' with
    | nil => simp [itemTokensBehind] at h
    | cons j' js' =>
      simp only [itemTokensBehind, List.cons_append, List.append_assoc, List.cons.injEq, true_and] at h
      obtain ⟨hj, hbehind⟩ := tokens_unique h
      obtain ⟨hjs, hr⟩ := itemTokensBehind_unique hbehind
      exact ⟨by rw [hj, hjs], hr⟩

theorem fieldTokensBehind_unique {fields fields' : List (String × Json)} {r r' : List Token}
    (h : fieldTokensBehind fields ++ r = fieldTokensBehind fields' ++ r') : fields = fields' ∧ r = r' := by
  cases fields with
  | nil =>
    cases fields' with
    | nil => simpa [fieldTokensBehind] using h
    | cons p' fields' => simp [fieldTokensBehind] at h
  | cons p fields =>
    obtain ⟨name, j⟩ := p
    cases fields' with
    | nil => simp [fieldTokensBehind] at h
    | cons p' fields' =>
      simp only [fieldTokensBehind, List.cons_append, List.append_assoc, List.cons.injEq, true_and,
        Token.string.injEq] at h
      obtain ⟨hj, hbehind⟩ := tokens_unique h.2
      obtain ⟨hfields, hr⟩ := fieldTokensBehind_unique hbehind
      exact ⟨by rw [h.1, hj, hfields], hr⟩

end

/-! ## Strings -/

/-- how strings are written -/
def stringEscaping : Escaping where
  plain c := c ≠ '"' ∧ c ≠ '\\' ∧ 0x20 ≤ c.toNat
  letters := ('"', '"') :: escapeLetters
  code n ds := ds.length = 4 ∧ Denotes ds n

theorem stringEscaping_distinct : stringEscaping.Distinct '"' where
  ne_backslash := by decide
  plain h := ⟨h.2.1, h.1⟩
  letter := by decide +kernel
  code := by
    rintro n n' w w' r r' ⟨hl, hn⟩ ⟨hl', hn'⟩ heq
    obtain ⟨rfl, hr⟩ := List.append_inj heq (hl.trans hl'.symm)
    exact ⟨hn.unique hn', hr⟩

/-! ## Texts -/

/-- what may stand between tokens -/
def IsSpace (c : Char) : Prop := c = ' ' ∨ c = '\t' ∨ c = '\n' ∨ c = '\r'

def marks : List Char := ['[', ']', '\x7b', '\x7d', ',', ':']

/-- how a token is written -/
inductive Token.Written : Token → List Char → Prop
  | mark {c} : c ∈ marks → Written (.mark c) [c]
  | null : Written .null "null".toList
  | true : Written (.bool true) "true".toList
  | false : Written (.bool false) "false".toList
  | string {s ws} : Items stringEscaping.Item s.toList ws → Written (.string s) ('"' :: (ws ++ ['"']))

/-- tokens one after the other, with blanks anywhere between them -/
inductive Row : List Token → List Char → Prop
  | done : Row [] []
  | space {c ts s} : IsSpace c → Row ts s → Row ts (c :: s)
  | token {t w ts s} : t.Written w → Row ts s → Row (t :: ts) (w ++ s)

/-- the text is one of the value -/
def IsText (j : Json) (text : String) : Prop := Row j.tokens text.toList

/-- no other token begins like a mark -/
theorem ne_of_mem_marks {c : Char} (h : c ∈ marks) : c ≠ 'n' ∧ c ≠ 't' ∧ c ≠ 'f' ∧ c ≠ '"' := by
  have hall : ∀ c ∈ marks, c ≠ 'n' ∧ c ≠ 't' ∧ c ≠ 'f' ∧ c ≠ '"' := by simp [marks]
  exact hall c h

theorem Token.Written.unique {t t' : Token} {w w' r r' : List Char} (h : t.Written w) (h' : t'.Written w')
    (heq : w ++ r = w' ++ r') : t = t' ∧ r = r' := by
  cases h with
  | mark hc =>
    obtain ⟨hn, ht, hf, hq⟩ := ne_of_mem_marks hc
    cases h' with
    | mark hc' => simpa using heq
    | _ => simp [hn, ht, hf, hq] at heq
  | string hs =>
    cases h' with
    | mark hc' => simp [(ne_of_mem_marks hc').2.2.2.symm] at heq
    | string hs' =>
      simp only [List.cons_append, List.append_assoc, List.nil_append, List.cons.injEq, true_and] at heq
      obtain ⟨hvalue, hr⟩ := hs.unique stringEscaping_distinct.separable hs' heq
      exact ⟨congrArg _ (String.toList_inj.1 hvalue), hr⟩
    | _ => simp at heq
  | _ =>
    cases h' with
    | mark hc' =>
      obtain ⟨hn, ht, hf, -⟩ := ne_of_mem_marks hc'
      simp [hn.symm, ht.symm, hf.symm] at heq
    | _ => simp_all

/-- a token begins with no blank -/
theorem Token.Written.not_isSpace {t : Token} {w r s : List Char} {c : Char} (h : t.Written w) (heq : w ++ r = c :: s) :
    ¬ IsSpace c := by
  have hmarks : ∀ c ∈ marks, ¬ (c = ' ' ∨ c = '\t' ∨ c = '\n' ∨ c = '\r') := by simp [marks]
  cases h with
  | mark hc =>
    obtain ⟨rfl, -⟩ := by simpa using heq
    exact hmarks _ hc
  | _ =>
    obtain ⟨rfl, -⟩ := by simpa using heq
    simp [IsSpace]

theorem Token.Written.ne_nil {t : Token} {w : List Char} (h : t.Written w) : w ≠ [] := by
  cases h <;> simp

/-- blanks and tokens can be told apart, and so can tokens -/
theorem Row.unique {ts ts' : List Token} {s s' : List Char} (h : Row ts s) (h' : Row ts' s') (heq : s = s') :
    ts = ts' := by
  induction h generalizing ts' s' with
  | done =>
    cases h' with
    | done => rfl
    | space => contradiction
    | token ht => exact absurd (List.append_eq_nil_iff.1 heq.symm).1 ht.ne_nil
  | space hc _ ih =>
    cases h' with
    | done => contradiction
    | space _ h' => exact ih h' (List.cons.inj heq).2
    | token ht => exact absurd hc (ht.not_isSpace heq.symm)
  | token ht _ ih =>
    cases h' with
    | done => exact absurd (List.append_eq_nil_iff.1 heq).1 ht.ne_nil
    | space hc => exact absurd hc (ht.not_isSpace heq)
    | token ht' h' =>
      obtain ⟨rfl, hrest⟩ := ht.unique ht' heq
      rw [ih h' hrest]

/-- **Texts are unambiguous.** No text is that of two values. -/
theorem IsText.unique {j j' : Json} {text : String} (h : j.IsText text) (h' : j'.IsText text) : j = j' := by
  have htokens : j.tokens ++ [] = j'.tokens ++ [] := congrArg (· ++ []) (Row.unique h h' rfl)
  exact (tokens_unique htokens).1

/-! ## Printing -/

theorem Row.append {ts ts' : List Token} {s s' : List Char} (h : Row ts s) (h' : Row ts' s') :
    Row (ts ++ ts') (s ++ s') := by
  induction h with
  | done => exact h'
  | space hc _ ih => exact .space hc ih
  | token ht _ ih =>
    rw [List.append_assoc]
    exact .token ht ih

theorem Token.Written.row {t : Token} {w : List Char} (h : t.Written w) : Row [t] w := by
  have hrow := Row.token h .done
  rwa [List.append_nil] at hrow

theorem row_mark {c : Char} (h : c ∈ marks) : Row [.mark c] [c] := (Token.Written.mark h).row

theorem row_newLine (depth : Nat) : Row [] (newLine depth).toList := by
  have hspaces (n : Nat) : Row [] (List.replicate n ' ') := by
    induction n with
    | zero => exact .done
    | succ n ih => exact .space (.inl rfl) ih
  unfold newLine
  rw [String.toList_ofList]
  exact .space (.inr (.inr (.inl rfl))) (hspaces _)

/-- a character is printed as it can be written -/
theorem item_stringChar (c : Char) : stringEscaping.Item c (stringChar c) := by
  have hpair : ∀ n < 0x20, hexNumber? ('0' :: '0' :: hexPair n) = some n := by decide
  unfold stringChar
  split
  case h_8 hquote hback _ _ _ _ _ =>
    split
    · rename_i hcode
      have hdigits : Denotes ('0' :: '0' :: hexPair c.toNat) c.toNat := hexNumber?_eq_some.1 (hpair _ hcode)
      exact .code ⟨rfl, hdigits⟩
    · rename_i hcode
      exact .plain ⟨by simpa using hquote, by simpa using hback, Nat.le_of_not_lt hcode⟩
  all_goals exact .letter (by decide)

theorem row_stringLiteral (s : String) : Row [.string s] (stringLiteral s).toList := by
  unfold stringLiteral
  rw [String.toList_ofList]
  exact (Token.Written.string (items_flatMap item_stringChar s.toList)).row

/-- the name of a field, up to its value -/
theorem row_fieldName (name : String) : Row [.string name, .mark ':'] (stringLiteral name ++ ": ").toList := by
  rw [String.toList_append]
  exact (row_stringLiteral name).append (.token (.mark (by decide)) (.space (.inl rfl) .done))

/-- a line end behind an item or a field -/
theorem row_comma (depth : Nat) : Row [.mark ','] ("," ++ newLine depth).toList := by
  rw [String.toList_append]
  exact Row.append (row_mark (by decide)) (row_newLine depth)

theorem intercalate_cons (separator line : String) (lines : List String) :
    (separator.intercalate (line :: lines)).toList =
      line.toList ++ lines.flatMap fun line => separator.toList ++ line.toList := by
  induction lines generalizing line with
  | nil => simp
  | cons next lines ih => rw [String.intercalate_cons_cons, String.toList_append, String.toList_append, ih]; simp

/-- there is no number in the value -/
def Numberless (j : Json) : Prop := ∀ text, .number text ∉ j.tokens

/-- lines between brackets are printed as the first one with the others behind it -/
theorem bracketed_cons (opening closing : String) (depth : Nat) (line : String) (lines : List String) :
    (bracketed opening closing depth (line :: lines)).toList =
      opening.toList ++ ((newLine (depth + 1)).toList ++ (line.toList ++
        ((lines.flatMap fun line => ("," ++ newLine (depth + 1)).toList ++ line.toList) ++
          ((newLine depth).toList ++ closing.toList)))) := by
  unfold bracketed
  simp only [String.toList_append, intercalate_cons, List.append_assoc]

mutual

/-- what is printed of a value are its tokens -/
theorem row_prettyAt (depth : Nat) (j : Json) (h : ∀ text, .number text ∉ j.tokens) :
    Row j.tokens (prettyAt depth j).toList := by
  cases j with
  | null => exact Token.Written.null.row
  | bool b =>
    cases b with
    | true => exact Token.Written.true.row
    | false => exact Token.Written.false.row
  | number text => simp [tokens] at h
  | string s => exact row_stringLiteral s
  | array js =>
    have hopening : Row [.mark '['] "[".toList := row_mark (by decide)
    have hclosing : Row [.mark ']'] "]".toList := row_mark (by decide)
    cases js with
    | nil =>
      simp only [tokens, itemTokens, prettyAt, prettyItems, bracketed, String.toList_append]
      exact hopening.append hclosing
    | cons j js =>
      simp only [tokens, itemTokens, List.mem_cons, List.mem_append, not_or, reduceCtorEq, not_false_eq_true,
        true_and, forall_and] at h
      simp only [tokens, itemTokens, prettyAt, prettyItems, bracketed_cons]
      exact hopening.append ((row_newLine _).append ((row_prettyAt _ j h.1).append (row_itemsBehind depth js h.2)))
  | object fields =>
    have hopening : Row [.mark '\x7b'] "\x7b".toList := row_mark (by decide)
    have hclosing : Row [.mark '\x7d'] "\x7d".toList := row_mark (by decide)
    cases fields with
    | nil =>
      simp only [tokens, fieldTokens, prettyAt, prettyFields, bracketed, String.toList_append]
      exact hopening.append hclosing
    | cons p fields =>
      obtain ⟨name, j⟩ := p
      simp only [tokens, fieldTokens, List.mem_cons, List.mem_append, not_or, reduceCtorEq, not_false_eq_true,
        true_and, forall_and] at h
      simp only [tokens, fieldTokens, prettyAt, prettyFields, bracketed_cons, String.toList_append (t := prettyAt _ _),
        List.append_assoc]
      exact hopening.append ((row_newLine _).append ((row_fieldName name).append ((row_prettyAt _ j h.1).append
        (row_fieldsBehind depth fields h.2))))

theorem row_itemsBehind (depth : Nat) (js : List Json) (h : ∀ text, .number text ∉ itemTokensBehind js) :
    Row (itemTokensBehind js) (((prettyItems (depth + 1) js).flatMap fun line =>
      ("," ++ newLine (depth + 1)).toList ++ line.toList) ++ ((newLine depth).toList ++ "]".toList)) := by
  have hclosing : Row [.mark ']'] "]".toList := row_mark (by decide)
  cases js with
  | nil => exact (row_newLine depth).append hclosing
  | cons j js =>
    simp only [itemTokensBehind, List.mem_cons, List.mem_append, not_or, reduceCtorEq, not_false_eq_true,
      true_and, forall_and] at h
    simp only [itemTokensBehind, prettyItems, List.flatMap_cons, List.append_assoc]
    exact (row_comma _).append ((row_prettyAt _ j h.1).append (row_itemsBehind depth js h.2))

theorem row_fieldsBehind (depth : Nat) (fields : List (String × Json))
    (h : ∀ text, .number text ∉ fieldTokensBehind fields) :
    Row (fieldTokensBehind fields) (((prettyFields (depth + 1) fields).flatMap fun line =>
      ("," ++ newLine (depth + 1)).toList ++ line.toList) ++ ((newLine depth).toList ++ "\x7d".toList)) := by
  have hclosing : Row [.mark '\x7d'] "\x7d".toList := row_mark (by decide)
  cases fields with
  | nil => exact (row_newLine depth).append hclosing
  | cons p fields =>
    obtain ⟨name, j⟩ := p
    simp only [fieldTokensBehind, List.mem_cons, List.mem_append, not_or, reduceCtorEq, not_false_eq_true,
      true_and, forall_and] at h
    simp only [fieldTokensBehind, prettyFields, List.flatMap_cons, String.toList_append (t := prettyAt _ _),
      List.append_assoc]
    exact (row_comma _).append ((row_fieldName name).append ((row_prettyAt _ j h.1).append
      (row_fieldsBehind depth fields h.2)))

end

theorem pretty_isText {j : Json} (h : j.Numberless) : j.IsText j.pretty := row_prettyAt 0 j h

/-! ## Trees -/

theorem number_mem_itemTokensBehind {text : String} {js : List Json} :
    .number text ∈ itemTokensBehind js ↔ ∃ j ∈ js, .number text ∈ j.tokens := by
  induction js with
  | nil => simp [itemTokensBehind]
  | cons j js ih => simp [itemTokensBehind, ih]

theorem number_mem_fieldTokensBehind {text : String} {fields : List (String × Json)} :
    .number text ∈ fieldTokensBehind fields ↔ ∃ p ∈ fields, .number text ∈ p.2.tokens := by
  induction fields with
  | nil => simp [fieldTokensBehind]
  | cons p fields ih =>
    obtain ⟨name, j⟩ := p
    simp [fieldTokensBehind, ih]

theorem numberless_array {js : List Json} : (array js).Numberless ↔ ∀ j ∈ js, j.Numberless := by
  have hmem (text : String) : .number text ∈ (array js).tokens ↔ ∃ j ∈ js, .number text ∈ j.tokens := by
    cases js with
    | nil => simp [tokens, itemTokens]
    | cons j js => simp [tokens, itemTokens, number_mem_itemTokensBehind]
  simp only [Numberless, hmem, not_exists, not_and]
  exact ⟨fun h j hj text => h text j hj, fun h text j hj => h j hj text⟩

theorem numberless_object {fields : List (String × Json)} :
    (object fields).Numberless ↔ ∀ p ∈ fields, p.2.Numberless := by
  have hmem (text : String) : .number text ∈ (object fields).tokens ↔ ∃ p ∈ fields, .number text ∈ p.2.tokens := by
    cases fields with
    | nil => simp [tokens, fieldTokens]
    | cons p fields =>
      obtain ⟨name, j⟩ := p
      simp [tokens, fieldTokens, number_mem_fieldTokensBehind]
  simp only [Numberless, hmem, not_exists, not_and]
  exact ⟨fun h p hp text => h text p hp, fun h text p hp => h p hp text⟩

theorem numberless_null : null.Numberless := by simp [Numberless, tokens]

theorem numberless_bool (b : Bool) : (bool b).Numberless := by simp [Numberless, tokens]

theorem numberless_string (s : String) : (string s).Numberless := by simp [Numberless, tokens]

theorem numberless_nullable {α : Type} {encode : α → Json} (h : ∀ a, (encode a).Numberless) (o : Option α) :
    (nullable encode o).Numberless := by
  cases o with
  | none => exact numberless_null
  | some a => exact h a

end Json

namespace Markup

open Json

theorem SuperCall.numberless_toJson (c : SuperCall) : c.toJson.Numberless := by
  simp [toJson, numberless_object, numberless_nullable numberless_string]

theorem Attribute.numberless_toJson (a : Attribute) : a.toJson.Numberless := by
  simp [toJson, numberless_object, numberless_string, numberless_nullable numberless_string]

theorem Attributes.numberless_toJson (a : Attributes) : a.toJson.Numberless := by
  simp [toJson, numberless_object, numberless_array, numberless_nullable SuperCall.numberless_toJson,
    Attribute.numberless_toJson]

theorem numberless_namesToJson (names : List (Option String)) : (namesToJson names).Numberless := by
  simp [namesToJson, numberless_array, numberless_nullable numberless_string]

theorem numberless_elementFields (isHelper : Bool) (tagName : Option String) (names : Option (List (Option String)))
    (attributes : Option Attributes) {content : Json} (h : content.Numberless) :
    (object (("nodeType", .string "Element") ::
      elementFields isHelper tagName names attributes content)).Numberless := by
  simp [elementFields, numberless_object, numberless_string, numberless_bool, numberless_nullable numberless_string,
    numberless_nullable numberless_namesToJson, numberless_nullable Attributes.numberless_toJson, h]

theorem numberless_nodesToJson (ns : List Node) : ∀ j ∈ nodesToJson ns, j.Numberless := by
  induction ns using nodes_induction with
  | nil => simp [nodesToJson]
  | text value ns ih =>
    rw [nodesToJson, List.forall_mem_cons]
    exact ⟨by simp [Node.toJson, numberless_object, numberless_string], ih⟩
  | comment value multiline ns ih =>
    rw [nodesToJson, List.forall_mem_cons]
    exact ⟨by simp [Node.toJson, numberless_object, numberless_string, numberless_bool], ih⟩
  | superCall call ns ih =>
    rw [nodesToJson, List.forall_mem_cons]
    refine ⟨?_, ih⟩
    simp [Node.toJson, numberless_object, numberless_string, numberless_nullable numberless_string]
  | element e ns ihc ih =>
    rw [nodesToJson, List.forall_mem_cons]
    refine ⟨?_, ih⟩
    obtain ⟨helper, tag, names, attributes, content⟩ := e
    cases content with
    | none => exact numberless_elementFields helper tag names attributes numberless_null
    | some content => exact numberless_elementFields helper tag names attributes (numberless_array.2 ihc)

theorem Block.numberless_toJson (b : Block) : b.toJson.Numberless := by
  simp only [toJson, numberless_object, List.forall_mem_cons, List.not_mem_nil, IsEmpty.forall_iff, implies_true,
    and_true]
  exact ⟨numberless_nullable numberless_string b.name, numberless_array.2 (numberless_nodesToJson b.content)⟩

end Markup

end BlockTemplates
