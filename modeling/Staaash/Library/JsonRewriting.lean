import Mathlib.Algebra.Order.BigOperators.Group.List
import Mathlib.Algebra.Order.Ring.Nat
import Mathlib.Data.Bool.AllAny
import Staaash.Library.JsonReading

/-!
# Rewriting JSON

Where a pattern can stand in the text of a value, and what is read after a textual replacement: the value
with its strings replaced. For the replacement that does nothing this is that a value is read back as it was. A
plain pattern has nothing of the syntax of JSON in it, so it only stands where a string has it.
-/

namespace Staaash.Library.Json

open JsString

/-- The units that escapes are made of. -/
def escapeUnits : JsString := units "\"\\u0123456789abcdefnrt"

theorem hexDigit_mem : ∀ n < 16, hexDigit n ∈ escapeUnits := by decide

/-- How a unit is written: as it is, or by an escape. -/
inductive Spelling (c : UInt16) : JsString → Prop
  | plain (h : Spells [c] [c]) : Spelling c [c]
  | escape {escape : JsString} (h : Spells (unit '\\' :: escape) [c]) (hunits : ∀ x ∈ escape, x ∈ escapeUnits) :
      Spelling c (unit '\\' :: escape)

variable {pattern text s : JsString} {c : UInt16} {paired : Bool}

theorem Spelling.spells (h : Spelling c text) : Spells text [c] := by
  cases h with
  | plain h => exact h
  | escape h => exact h

theorem spelling_unicodeEscape (c : UInt16) : Spelling c (unicodeEscape c) := by
  refine .escape (spells_unicodeEscape c) ?_
  have hc := c.toNat_lt
  intro x hx
  simp only [List.mem_cons, List.not_mem_nil, or_false] at hx
  rcases hx with rfl | rfl | rfl | rfl | rfl
  · decide
  · exact hexDigit_mem _ (by omega)
  · exact hexDigit_mem _ (by omega)
  · exact hexDigit_mem _ (by omega)
  · exact hexDigit_mem _ (by omega)

theorem mem_of_shortEscape {letter : UInt16} (h : shortEscape c = some letter) : letter ∈ escapeUnits := by
  unfold shortEscape at h
  split_ifs at h with h₁ h₂ h₃ h₄ h₅ h₆
  · obtain rfl := Option.some.inj h
    decide
  · obtain rfl := Option.some.inj h
    decide
  · obtain rfl := Option.some.inj h
    decide
  · obtain rfl := Option.some.inj h
    decide
  · obtain rfl := Option.some.inj h
    decide
  · obtain rfl := Option.some.inj h
    simp only [Bool.or_eq_true, decide_eq_true_eq] at h₆
    rcases h₆ with rfl | rfl
    · decide
    · decide

theorem spelling_quoteUnit (c : UInt16) : Spelling c (quoteUnit c) := by
  have hspells := spells_quoteUnit c
  cases hshort : shortEscape c with
  | some letter =>
    have hquote : quoteUnit c = [unit '\\', letter] := by rw [quoteUnit, hshort]
    rw [hquote] at hspells ⊢
    refine .escape hspells fun x hx => ?_
    obtain rfl := List.mem_singleton.1 hx
    exact mem_of_shortEscape hshort
  | none =>
    have hquote : quoteUnit c = if c < 0x20 then unicodeEscape c else [c] := by rw [quoteUnit, hshort]
    rw [hquote] at hspells ⊢
    split_ifs at hspells ⊢ with hc
    · exact spelling_unicodeEscape c
    · exact .plain hspells

theorem quoteFrom_cons (paired : Bool) (c : UInt16) (s : JsString) : ∃ spelling paired', Spelling c spelling ∧
    quoteFrom paired (c :: s) = spelling ++ quoteFrom paired' s := by
  rw [quoteFrom]
  split_ifs with hlead hescape
  · simp only [Bool.and_eq_true] at hlead
    obtain ⟨hquote, hslash, hc⟩ := not_special_of_isLead hlead.1
    exact ⟨[c], true, .plain (spells_unit hquote hslash hc), rfl⟩
  · exact ⟨unicodeEscape c, false, spelling_unicodeEscape c, rfl⟩
  · exact ⟨quoteUnit c, false, spelling_quoteUnit c, rfl⟩

/-- What a dollar goes with is not escaped. -/
theorem quoteFrom_special (hc : c ∈ special) : quoteFrom paired (c :: s) = c :: quoteFrom false s := by
  have hunits : ∀ c ∈ special, isLead c = false ∧ isTrail c = false ∧ quoteUnit c = [c] :=
    List.all_iff_forall_prop.1 (by decide)
  obtain ⟨hlead, htrail, hquote⟩ := hunits c hc
  rw [quoteFrom, hlead, htrail, hquote]
  rfl

variable {Number : Type} {numbers : Numbers Number}

theorem stringifyProperties_eq_map (properties : List (JsString × Value Number)) :
    stringifyProperties numbers properties =
      properties.map fun (key, value) => (quote key, stringify numbers value) := by
  induction properties with
  | nil => rfl
  | cons property properties ih =>
    rw [stringifyProperties, ih]
    rfl

/-! ## Plain patterns -/

structure Plain (pattern : JsString) : Prop where
  syntaxFree : ∀ c ∈ units "\"\\,\x7b\x7d", c ∉ pattern
  /-- Neither a colon nor a part of an escape begins the pattern. -/
  head : ∃ x rest, pattern = x :: rest ∧ x ≠ unit ':' ∧ x ∉ escapeUnits

/-- Symbols that do not begin a pattern can be left out before it. -/
theorem infix_of_infix_append {x : UInt16} {rest front : JsString} (hfront : x ∉ front)
    (h : x :: rest <:+: front ++ text) : x :: rest <:+: text := by
  induction front with
  | nil => exact h
  | cons y front ih =>
    rw [List.mem_cons, not_or] at hfront
    rcases List.infix_cons_iff.1 h with hstarts | hpart
    · exact absurd (List.cons_prefix_cons.1 hstarts).1 hfront.1
    · exact ih hfront.2 hpart

theorem prefix_of_prefix_quoteFrom (hslash : unit '\\' ∉ pattern) (h : pattern <+: quoteFrom paired s) :
    pattern <+: s := by
  induction pattern generalizing s paired with
  | nil => exact List.nil_prefix
  | cons x pattern ih =>
    rw [List.mem_cons, not_or] at hslash
    cases s with
    | nil => exact h
    | cons c s =>
      obtain ⟨spelling, paired', hspelling, heq⟩ := quoteFrom_cons paired c s
      rw [heq] at h
      cases hspelling with
      | plain =>
        obtain ⟨rfl, hrest⟩ := List.cons_prefix_cons.1 h
        exact List.cons_prefix_cons.2 ⟨rfl, ih hslash.2 hrest⟩
      | escape => exact absurd (List.cons_prefix_cons.1 h).1.symm hslash.1

namespace Plain

variable (hp : Plain pattern)

include hp

theorem infix_quoteFrom (h : pattern <:+: quoteFrom paired s) : pattern <:+: s := by
  obtain ⟨x, rest, rfl, -, hx⟩ := hp.head
  have hslash : unit '\\' ∉ x :: rest := hp.syntaxFree _ (by decide)
  induction s generalizing paired with
  | nil => exact h
  | cons c s ih =>
    obtain ⟨spelling, paired', hspelling, heq⟩ := quoteFrom_cons paired c s
    rw [heq] at h
    cases hspelling with
    | plain =>
      rcases List.infix_cons_iff.1 h with hstarts | hpart
      · have hwhole : x :: rest <+: quoteFrom paired (c :: s) := by
          rw [heq]
          exact hstarts
        exact (prefix_of_prefix_quoteFrom hslash hwhole).isInfix
      · exact (ih hpart).trans (List.suffix_cons c s).isInfix
    | escape hspells hunits =>
      rcases List.infix_cons_iff.1 h with hstarts | hpart
      · exact absurd (List.cons_prefix_cons.1 hstarts).1 fun heq => hslash (heq ▸ List.mem_cons_self)
      · have hrest := infix_of_infix_append (fun hmem => hx (hunits x hmem)) hpart
        exact (ih hrest).trans (List.suffix_cons c s).isInfix

/-- A pattern in a literal is in the string. -/
theorem infix_quote (h : pattern <:+: quote s) : pattern <:+: s := by
  have hquote : unit '"' ∉ pattern := hp.syntaxFree _ (by decide)
  obtain ⟨x, rest, heq, -, -⟩ := hp.head
  have hnil : ¬ pattern <:+: [] := by simp [heq]
  have hfirst : pattern <:+: [] ++ unit '"' :: (quoteFrom false s ++ [unit '"']) := h
  rcases (Substrings.infix_append_cons hquote).1 hfirst with h | h
  · exact absurd h hnil
  · exact hp.infix_quoteFrom (((Substrings.infix_append_cons hquote).1 h).resolve_right hnil)

theorem infix_intercalate {texts : List JsString} (h : pattern <:+: [unit ','].intercalate texts) :
    ∃ text ∈ texts, pattern <:+: text := by
  have hcomma : unit ',' ∉ pattern := hp.syntaxFree _ (by decide)
  obtain ⟨x, rest, heq, -, -⟩ := hp.head
  induction texts with
  | nil => simp [heq] at h
  | cons text texts ih =>
    cases texts with
    | nil => exact ⟨text, List.mem_cons_self, by simpa using h⟩
    | cons next texts =>
      rw [List.intercalate_cons_cons, List.append_assoc] at h
      rcases (Substrings.infix_append_cons hcomma).1 h with h | h
      · exact ⟨text, List.mem_cons_self, h⟩
      · obtain ⟨found, hfound, hpart⟩ := ih h
        exact ⟨found, List.mem_cons_of_mem _ hfound, hpart⟩

/-- A pattern in the text of an object is in a key or in the text of a value. -/
theorem infix_object {properties : List (JsString × Value Number)} {front back : JsString}
    (hfront : ¬ pattern <:+: front) (hback : ¬ pattern <:+: back)
    (h : pattern <:+: front ++ stringify numbers (.object properties) ++ back) :
    ∃ property ∈ properties, pattern <:+: property.1 ∨ pattern <:+: stringify numbers property.2 := by
  have hopen : unit '{' ∉ pattern := hp.syntaxFree _ (by decide)
  have hclose : unit '}' ∉ pattern := hp.syntaxFree _ (by decide)
  have hquote : unit '"' ∉ pattern := hp.syntaxFree _ (by decide)
  have ⟨x, rest, heq, hcolon, _⟩ := hp.head
  have hnil : ¬ pattern <:+: [] := by simp [heq]
  rw [stringify, stringifyProperties_eq_map, objectText, List.map_map] at h
  simp only [List.append_assoc, List.cons_append, List.nil_append] at h
  have hinner := ((Substrings.infix_append_cons hopen).1 h).resolve_left hfront
  have hmembers := ((Substrings.infix_append_cons hclose).1 hinner).resolve_right hback
  obtain ⟨text, htext, hpart⟩ := hp.infix_intercalate hmembers
  obtain ⟨⟨key, value⟩, hproperty, rfl⟩ := List.mem_map.1 htext
  refine ⟨(key, value), hproperty, ?_⟩
  have hmember : pattern <:+: [] ++ unit '"' :: (quoteFrom false key ++ unit '"' :: unit ':' :: stringify numbers value) := by
    simpa [quote] using hpart
  rcases (Substrings.infix_append_cons hquote).1 (((Substrings.infix_append_cons hquote).1 hmember).resolve_left hnil)
    with hkey | hvalue
  · exact .inl (hp.infix_quoteFrom hkey)
  · refine .inr ?_
    have hvalue' : pattern <:+: [unit ':'] ++ stringify numbers value := hvalue
    rw [heq] at hvalue' ⊢
    exact infix_of_infix_append (by simpa using hcolon) hvalue'

end Plain

variable {v : Value Number} {properties : List (JsString × Value Number)} {f : JsString → JsString}

/-! ## Values and their strings -/

/-- Values of strings, objects, nothing and one. -/
inductive Simple (numbers : Numbers Number) : Value Number → Prop
  | null : Simple numbers .null
  | one : Simple numbers (.number numbers.one)
  | string (s : JsString) : Simple numbers (.string s)
  | object {properties : List (JsString × Value Number)} (hordered : Ordered properties)
      (h : ∀ property ∈ properties, Simple numbers property.2) : Simple numbers (.object properties)

mutual

/-- The keys and strings of a value. -/
def strings : Value Number → List JsString
  | .string s => [s]
  | .array elements => stringsOfElements elements
  | .object properties => stringsOfProperties properties
  | _ => []

def stringsOfElements : List (Value Number) → List JsString
  | [] => []
  | element :: rest => strings element ++ stringsOfElements rest

def stringsOfProperties : List (JsString × Value Number) → List JsString
  | [] => []
  | (key, value) :: rest => key :: strings value ++ stringsOfProperties rest

end

theorem mem_stringsOfProperties {s : JsString} : s ∈ stringsOfProperties properties ↔
    ∃ property ∈ properties, s = property.1 ∨ s ∈ strings property.2 := by
  induction properties with
  | nil => simp [stringsOfProperties]
  | cons property properties ih => simp [stringsOfProperties, ih, or_assoc]

mutual

/-- The value with its strings rewritten. Where two keys become one, the later property is kept. -/
def rewrite (f : JsString → JsString) : Value Number → Value Number
  | .string s => .string (f s)
  | .array elements => .array (rewriteElements f elements)
  | .object properties =>
    .object ((rewriteProperties f properties).foldl
      (fun properties property => setProperty property.1 property.2 properties) [])
  | value => value

def rewriteElements (f : JsString → JsString) : List (Value Number) → List (Value Number)
  | [] => []
  | element :: rest => rewrite f element :: rewriteElements f rest

def rewriteProperties (f : JsString → JsString) : List (JsString × Value Number) → List (JsString × Value Number)
  | [] => []
  | (key, value) :: rest => (f key, rewrite f value) :: rewriteProperties f rest

end

theorem rewriteProperties_eq_map (properties : List (JsString × Value Number)) :
    rewriteProperties f properties = properties.map fun (key, value) => (f key, rewrite f value) := by
  induction properties with
  | nil => rfl
  | cons property properties ih =>
    rw [rewriteProperties, ih]
    rfl

theorem Simple.rewrite_id (h : Simple numbers v) : rewrite id v = v := by
  induction h with
  | null => rfl
  | one => rfl
  | string => rfl
  | @object properties hordered h ih =>
    have hsame : rewriteProperties id properties = properties := by
      rw [rewriteProperties_eq_map]
      exact (List.map_congr_left fun property hproperty => by
        show (property.1, rewrite id property.2) = property
        rw [ih property hproperty]).trans (List.map_id _)
    rw [rewrite, hsame, foldl_setProperty hordered]

/-! ## Plain patterns -/

/-- A plain pattern in the text of a value is in one of its strings. -/
theorem Simple.infix_stringify {pattern : JsString} (h : Simple numbers v) (hp : Plain pattern)
    (hnull : ¬ pattern <:+: units "null") (hone : ¬ pattern <:+: units "1")
    (hpart : pattern <:+: stringify numbers v) : ∃ s ∈ strings v, pattern <:+: s := by
  induction h with
  | null => exact absurd hpart hnull
  | one =>
    rw [stringify, numbers.toText_one] at hpart
    exact absurd hpart hone
  | string s => exact ⟨s, by simp [strings], hp.infix_quote hpart⟩
  | @object properties hordered h ih =>
    have hnil : ¬ pattern <:+: [] := fun hnil => hnull (hnil.trans (List.nil_infix))
    have hwhole : pattern <:+: [] ++ stringify numbers (.object properties) ++ [] := by simpa using hpart
    obtain ⟨property, hproperty, hkey | hvalue⟩ := hp.infix_object hnil hnil hwhole
    · exact ⟨property.1, mem_stringsOfProperties.2 ⟨property, hproperty, .inl rfl⟩, hkey⟩
    · obtain ⟨s, hs, hin⟩ := ih property hproperty hvalue
      exact ⟨s, mem_stringsOfProperties.2 ⟨property, hproperty, .inr hs⟩, hin⟩

/-! ## Replacements in a text -/

/-- A replacement that leaves the syntax of JSON as it is. -/
structure Textual (f : JsString → JsString) : Prop where
  split : ∀ {c xs ys}, c ∉ special → f (xs ++ c :: ys) = f xs ++ c :: f ys
  plain : ∀ {xs}, unit '$' ∉ xs → f xs = xs
  spells : ∀ s, Spells (f (quoteFrom false s)) (f s)

theorem textual_id : Textual id := ⟨fun _ => rfl, fun _ => rfl, fun s => spells_quoteFrom s false⟩

theorem Spells.cons {text s : JsString} {c : UInt16} (h : Spells text s) (hc : Spells [c] [c]) :
    Spells (c :: text) (c :: s) := hc.append h

theorem spells_special : ∀ c ∈ special, Spells [c] [c] := by
  intro c hc
  have hplain : ∀ c ∈ special, c ≠ unit '"' ∧ c ≠ unit '\\' ∧ ¬ c < 0x20 :=
    List.all_iff_forall_prop.1 (by decide)
  obtain ⟨hquote, hslash, hlow⟩ := hplain c hc
  exact spells_unit hquote hslash hlow

theorem Spelling.getSubstitution_append {c : UInt16} {spelling text : JsString} {dollar : Bool}
    (h : Spelling c spelling) (hc : c ∉ special) : getSubstitution [] [] [] dollar (spelling ++ text) =
      (if dollar then [unit '$'] else []) ++ (spelling ++ getSubstitution [] [] [] false text) := by
  cases h with
  | plain => exact getSubstitution_cons hc
  | escape hspells hunits =>
    have hdollar : unit '$' ∉ escapeUnits := by decide
    rw [List.cons_append, getSubstitution_cons (by decide),
      JsString.getSubstitution_append fun hmem => hdollar (hunits _ hmem)]
    rfl

theorem spells_getSubstitution (s : JsString) : ∀ dollar paired,
    Spells (getSubstitution [] [] [] dollar (quoteFrom paired s)) (getSubstitution [] [] [] dollar s) := by
  have hdollar : Spells [unit '$'] [unit '$'] := spells_special _ (by decide)
  induction s with
  | nil =>
    intro dollar paired
    cases dollar with
    | false => exact spells_nil
    | true => exact hdollar
  | cons c s ih =>
    intro dollar paired
    by_cases hc : c ∈ special
    · rw [quoteFrom_special hc]
      have hc' := spells_special c hc
      cases dollar with
      | true =>
        simp only [special, List.mem_cons, List.not_mem_nil, or_false] at hc
        rcases hc with rfl | rfl | rfl | rfl
        · exact (ih false false).cons hc'
        · exact ih false false
        · exact ih false false
        · exact ih false false
      | false =>
        by_cases hd : c = unit '$'
        · subst hd
          exact ih true false
        · have hfalse : ∀ text, getSubstitution [] [] [] false (c :: text) =
              c :: getSubstitution [] [] [] false text := fun text => by
            rw [getSubstitution, if_neg (by simp), if_neg hd]
          rw [hfalse, hfalse]
          exact (ih false false).cons hc'
    · obtain ⟨spelling, paired', hspelling, heq⟩ := quoteFrom_cons paired c s
      rw [heq, hspelling.getSubstitution_append hc, getSubstitution_cons hc]
      refine Spells.append ?_ (hspelling.spells.append (ih false paired'))
      cases dollar with
      | false => exact spells_nil
      | true => exact hdollar

/-- With nothing to put in, a replacement's patterns only go away. -/
theorem textual_getSubstitution : Textual (getSubstitution [] [] [] false) :=
  ⟨fun hc => getSubstitution_append_cons hc, fun h => getSubstitution_eq_self h,
    fun s => spells_getSubstitution s false false⟩

/-! ## Reading what is left -/

namespace Textual

variable (hf : Textual f)

include hf

theorem nil : f [] = [] := hf.plain (by simp)

theorem cons {c : UInt16} (hc : c ∉ special) (text : JsString) : f (c :: text) = c :: f text := by
  rw [← List.nil_append (c :: text), hf.split hc, hf.nil]
  rfl

theorem quote_append (s text : JsString) :
    f (quote s ++ text) = unit '"' :: f (quoteFrom false s) ++ [unit '"'] ++ f text := by
  have hc : unit '"' ∉ special := by decide
  unfold quote
  rw [List.append_assoc, List.cons_append, List.singleton_append, hf.cons hc, hf.split hc]
  simp

theorem intercalate (texts : List JsString) :
    f ([unit ','].intercalate texts) = [unit ','].intercalate (texts.map f) := by
  have hc : unit ',' ∉ special := by decide
  induction texts with
  | nil => exact hf.nil
  | cons text texts ih =>
    cases texts with
    | nil => simp
    | cons next texts =>
      rw [List.intercalate_cons_cons, List.append_assoc, List.singleton_append, hf.split hc, ih]
      simp only [List.map_cons, List.intercalate_cons_cons, List.append_assoc]
      rfl

/-- A property as its text comes out. -/
def member (f : JsString → JsString) (numbers : Numbers Number) (property : JsString × Value Number) :
    Member Number :=
  ⟨f (quoteFrom false property.1), f (stringify numbers property.2), f property.1, rewrite f property.2⟩

theorem object (properties : List (JsString × Value Number)) :
    f (stringify numbers (.object properties)) =
      objectText ((properties.map (member f numbers)).map Member.literal) := by
  have hopen : unit '{' ∉ special := by decide
  have hclose : unit '}' ∉ special := by decide
  have hcolon : unit ':' ∉ special := by decide
  rw [stringify, stringifyProperties_eq_map]
  unfold objectText
  rw [List.cons_append, hf.cons hopen, hf.split hclose, hf.nil, hf.intercalate]
  simp only [List.map_map]
  congr 4
  funext property
  show f (quote property.1 ++ unit ':' :: stringify numbers property.2) = _
  rw [hf.quote_append, hf.cons hcolon]
  rfl

theorem reads_object (h : ∀ property ∈ properties,
    ReadsBefore numbers (f (stringify numbers property.2)) (rewrite f property.2)) :
    Reads numbers (f (stringify numbers (.object properties))) (rewrite f (.object properties)) := by
  have hmembers : ∀ m ∈ properties.map (member f numbers), m.Spelled numbers := by
    intro m hm
    obtain ⟨property, hproperty, rfl⟩ := List.mem_map.1 hm
    exact ⟨hf.spells property.1, h property hproperty⟩
  have hreads := Json.reads_object hmembers
  rw [hf.object, rewrite, rewriteProperties_eq_map, List.foldl_map]
  unfold withMembers at hreads
  rw [List.foldl_map] at hreads
  exact hreads

theorem readsBefore (h : Simple numbers v) : ReadsBefore numbers (f (stringify numbers v)) (rewrite f v) := by
  induction h with
  | null =>
    rw [stringify, hf.plain (by decide)]
    exact reads_null.before
  | one =>
    rw [stringify, numbers.toText_one, hf.plain (by decide)]
    exact readsBefore_one
  | string s =>
    have hquote := hf.quote_append s []
    rw [List.append_nil, hf.nil, List.append_nil] at hquote
    rw [stringify, hquote]
    exact (reads_string (hf.spells s)).before
  | object hordered h ih => exact (hf.reads_object ih).before

/-- The text of an object is read as the object, rewritten. -/
theorem parse_object (h : Simple numbers (.object properties)) :
    parse numbers (f (stringify numbers (.object properties))) = some (rewrite f (.object properties)) := by
  cases h with
  | object hordered h => exact (hf.reads_object fun property hmem => hf.readsBefore (h property hmem)).parse_eq

end Textual

/-- An object is read back. -/
theorem Simple.parse_stringify (h : Simple numbers (.object properties)) :
    parse numbers (stringify numbers (.object properties)) = some (.object properties) := by
  have hparse := textual_id.parse_object h
  rw [h.rewrite_id] at hparse
  exact hparse

/-! ## What a rewriting takes away -/

/-- How much is in the keys and strings of a value. -/
def weight (v : Value Number) : Nat := ((strings v).map List.length).sum

def weightOf (properties : List (JsString × Value Number)) : Nat :=
  ((stringsOfProperties properties).map List.length).sum

theorem weightOf_cons (property : JsString × Value Number) :
    weightOf (property :: properties) = property.1.length + weight property.2 + weightOf properties := by
  simp [weightOf, weight, stringsOfProperties, Nat.add_assoc]

variable {key : JsString} {value : Value Number}

theorem keys_insertProperty_perm :
    ((insertProperty key value properties).map Prod.fst).Perm (key :: properties.map Prod.fst) := by
  induction properties with
  | nil => exact .refl _
  | cons property properties ih =>
    rw [insertProperty]
    split
    · exact .refl _
    · exact (ih.cons property.1).trans (.swap _ _ _)

theorem weightOf_insertProperty :
    weightOf (insertProperty key value properties) = weightOf properties + key.length + weight value := by
  induction properties with
  | nil =>
    rw [insertProperty, weightOf_cons]
    dsimp only
    omega
  | cons property properties ih =>
    rw [insertProperty]
    split
    · rw [weightOf_cons]
      dsimp only
      omega
    · rw [weightOf_cons, weightOf_cons, ih]
      omega

theorem keys_setProperty_nodup (h : (properties.map Prod.fst).Nodup) :
    ((setProperty key value properties).map Prod.fst).Nodup := by
  unfold setProperty
  split
  · have hkeys : (properties.map fun property => if property.1 = key then (key, value) else property).map
        Prod.fst = properties.map Prod.fst := by
      rw [List.map_map]
      refine List.map_congr_left fun property _ => ?_
      show (if property.1 = key then (key, value) else property).1 = property.1
      split
      · rename_i heq
        exact heq.symm
      · rfl
    rw [hkeys]
    exact h
  · rename_i hmem
    exact keys_insertProperty_perm.nodup_iff.2 (List.nodup_cons.2 ⟨hmem, h⟩)

/-- Setting a property adds no more than what it has. -/
theorem weightOf_setProperty_le (h : (properties.map Prod.fst).Nodup) :
    weightOf (setProperty key value properties) ≤ weightOf properties + key.length + weight value := by
  unfold setProperty
  split
  · clear * - h
    induction properties with
    | nil => exact Nat.le_add_right_of_le (Nat.le_add_right _ _)
    | cons property properties ih =>
      obtain ⟨hnew, hrest⟩ := List.nodup_cons.1 h
      rw [List.map_cons, weightOf_cons, weightOf_cons]
      split
      · rename_i heq
        have hsame : (properties.map fun property => if property.1 = key then (key, value) else property) =
            properties := by
          refine (List.map_congr_left fun other hother => ?_).trans (List.map_id _)
          refine if_neg fun hkey => hnew ?_
          rw [heq, ← hkey]
          exact List.mem_map_of_mem hother
        rw [hsame]
        show key.length + weight value + _ ≤ _
        omega
      · have := ih hrest
        omega
  · rw [weightOf_insertProperty]

theorem weightOf_foldl_le {entries : List (JsString × Value Number)} (h : (properties.map Prod.fst).Nodup) :
    weightOf (entries.foldl (fun properties entry => setProperty entry.1 entry.2 properties) properties) ≤
      weightOf properties + weightOf entries := by
  induction entries generalizing properties with
  | nil => exact Nat.le_add_right _ _
  | cons entry entries ih =>
    have hset := @weightOf_setProperty_le _ _ entry.1 entry.2 h
    have hrest := ih (@keys_setProperty_nodup _ _ entry.1 entry.2 h)
    rw [List.foldl_cons, weightOf_cons]
    omega

theorem weightOf_eq_sum :
    weightOf properties = (properties.map fun property => property.1.length + weight property.2).sum := by
  induction properties with
  | nil => rfl
  | cons property properties ih => rw [weightOf_cons, ih, List.map_cons, List.sum_cons]

theorem weight_rewrite_object :
    weight (rewrite f (.object properties)) ≤
      (properties.map fun property => (f property.1).length + weight (rewrite f property.2)).sum := by
  rw [rewrite]
  have hle := @weightOf_foldl_le Number [] (rewriteProperties f properties) List.nodup_nil
  refine hle.trans_eq ?_
  have hsum : weightOf (rewriteProperties f properties) =
      (properties.map fun property => (f property.1).length + weight (rewrite f property.2)).sum := by
    rw [weightOf_eq_sum, rewriteProperties_eq_map, List.map_map]
    rfl
  rw [hsum, show weightOf ([] : List (JsString × Value Number)) = 0 from rfl, Nat.zero_add]

theorem Simple.weight_rewrite_le (h : Simple numbers v) (hle : ∀ s, (f s).length ≤ s.length) :
    weight (rewrite f v) ≤ weight v := by
  induction h with
  | null => exact le_rfl
  | one => exact le_rfl
  | string s => simpa [weight, rewrite, strings] using hle s
  | @object properties hordered h ih =>
    refine weight_rewrite_object.trans ?_
    show _ ≤ weightOf properties
    rw [weightOf_eq_sum]
    exact List.sum_le_sum fun property hmem => Nat.add_le_add (hle _) (ih property hmem)

theorem Simple.weight_rewrite_lt {s : JsString} (h : Simple numbers v) (hle : ∀ s, (f s).length ≤ s.length)
    (hs : s ∈ strings v) (hlt : (f s).length < s.length) : weight (rewrite f v) < weight v := by
  induction h with
  | null => cases hs
  | one => cases hs
  | string s' =>
    obtain rfl := List.mem_singleton.1 hs
    simpa [weight, rewrite, strings] using hlt
  | @object properties hordered h ih =>
    refine weight_rewrite_object.trans_lt ?_
    show _ < weightOf properties
    rw [weightOf_eq_sum]
    refine List.sum_lt_sum _ _ (fun property hmem => Nat.add_le_add (hle _)
      ((h property hmem).weight_rewrite_le hle)) ?_
    obtain ⟨property, hmem, rfl | hin⟩ := mem_stringsOfProperties.1 hs
    · exact ⟨property, hmem, Nat.add_lt_add_of_lt_of_le hlt ((h property hmem).weight_rewrite_le hle)⟩
    · exact ⟨property, hmem, Nat.add_lt_add_of_le_of_lt (hle _) (ih property hmem hin)⟩

end Staaash.Library.Json
