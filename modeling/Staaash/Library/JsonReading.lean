import Mathlib.Data.List.Infix
import Staaash.Library.Json

/-!
# Reading JSON

What `parse` makes of the text of an object whose keys and values are spelled in any way, and so of what
`stringify` writes.
-/

namespace Staaash.Library.Json

variable {Number : Type} {numbers : Numbers Number} {reading : Reading Number} {stack : List (Frame Number)}
  {s t text text' : JsString} {value : Value Number} {c : UInt16}

theorem read_append (text text' : JsString) :
    read numbers reading (text ++ text') = (read numbers reading text).bind (read numbers · text') := by
  unfold read
  rw [List.foldlM_append]
  rfl

theorem read_cons (c : UInt16) (text : JsString) :
    read numbers reading (c :: text) = (step numbers reading c).bind (read numbers · text) := by
  unfold read
  rw [List.foldlM_cons]
  rfl

@[simp] theorem read_nil : read numbers reading [] = some reading := rfl

/-! ## String literals -/

/-- Inside a string literal, the text is read as the string. -/
def Spells (text s : JsString) : Prop :=
  ∀ (Number : Type) (numbers : Numbers Number) (before : JsString) (isKey : Bool) (stack : List (Frame Number)),
    read numbers ⟨.string .none before isKey, stack⟩ text = some ⟨.string .none (before ++ s) isKey, stack⟩

theorem spells_nil : Spells [] [] := fun Number numbers before isKey stack => by simp

theorem Spells.append (h : Spells text s) (h' : Spells text' t) : Spells (text ++ text') (s ++ t) := by
  intro Number numbers before isKey stack
  rw [read_append, h, Option.bind_some, h', List.append_assoc]

theorem spells_unit (hquote : c ≠ unit '"') (hslash : c ≠ unit '\\') (hc : ¬ c < 0x20) : Spells [c] [c] := by
  intro Number numbers before isKey stack
  rw [read_cons]
  simp [step, stepString, hquote, hslash, hc]

theorem spells_escape {letter : UInt16} (hletter : letter ≠ unit 'u') (h : unescape letter = some c) :
    Spells [unit '\\', letter] [c] := by
  intro Number numbers before isKey stack
  have hquote : unit '\\' ≠ unit '"' := by decide
  simp [read_cons, step, stepString, hquote, hletter, h]

theorem hexValue_hexDigit : ∀ n < 16, hexValue (hexDigit n) = some n := by decide

theorem spells_unicodeEscape (c : UInt16) : Spells (unicodeEscape c) [c] := by
  intro Number numbers before isKey stack
  have hquote : unit '\\' ≠ unit '"' := by decide
  have hc := c.toNat_lt
  have hvalue : UInt16.ofNat (16 * (16 * (16 * (c.toNat / 4096) + c.toNat / 256 % 16) + c.toNat / 16 % 16) +
      c.toNat % 16) = c := by
    rw [show 16 * (16 * (16 * (c.toNat / 4096) + c.toNat / 256 % 16) + c.toNat / 16 % 16) + c.toNat % 16 =
      c.toNat by omega]
    exact UInt16.ofNat_toNat
  have h₁ := hexValue_hexDigit (c.toNat / 4096) (by omega)
  have h₂ := hexValue_hexDigit (c.toNat / 256 % 16) (by omega)
  have h₃ := hexValue_hexDigit (c.toNat / 16 % 16) (by omega)
  have h₄ := hexValue_hexDigit (c.toNat % 16) (by omega)
  simp [unicodeEscape, read_cons, step, stepString, hquote, h₁, h₂, h₃, h₄, hvalue, -UInt16.ofNat_add,
    -UInt16.ofNat_mul]

theorem unescape_shortEscape {letter : UInt16} (h : shortEscape c = some letter) :
    letter ≠ unit 'u' ∧ unescape letter = some c := by
  unfold shortEscape at h
  split_ifs at h with h₁ h₂ h₃ h₄ h₅ h₆
  · obtain rfl := Option.some.inj h
    exact ⟨by decide, by rw [h₁]; decide⟩
  · obtain rfl := Option.some.inj h
    exact ⟨by decide, by rw [h₂]; decide⟩
  · obtain rfl := Option.some.inj h
    exact ⟨by decide, by rw [h₃]; decide⟩
  · obtain rfl := Option.some.inj h
    exact ⟨by decide, by rw [h₄]; decide⟩
  · obtain rfl := Option.some.inj h
    exact ⟨by decide, by rw [h₅]; decide⟩
  · obtain rfl := Option.some.inj h
    simp only [Bool.or_eq_true, decide_eq_true_eq] at h₆
    rcases h₆ with rfl | rfl
    · exact ⟨by decide, by decide⟩
    · exact ⟨by decide, by decide⟩

theorem spells_quoteUnit (c : UInt16) : Spells (quoteUnit c) [c] := by
  unfold quoteUnit
  cases hshort : shortEscape c with
  | some letter =>
    obtain ⟨hletter, h⟩ := unescape_shortEscape hshort
    exact spells_escape hletter h
  | none =>
    show Spells (if c < 0x20 then unicodeEscape c else [c]) [c]
    split
    · exact spells_unicodeEscape c
    · rename_i hc
      refine spells_unit ?_ ?_ hc
      · rintro rfl
        exact absurd hshort (by decide)
      · rintro rfl
        exact absurd hshort (by decide)

theorem not_special_of_isLead (h : isLead c = true) : c ≠ unit '"' ∧ c ≠ unit '\\' ∧ ¬ c < 0x20 := by
  unfold isLead at h
  simp only [Bool.and_eq_true, decide_eq_true_eq, UInt16.le_iff_toNat_le] at h
  refine ⟨?_, ?_, ?_⟩
  · rintro rfl
    exact absurd h.1 (by decide)
  · rintro rfl
    exact absurd h.1 (by decide)
  · rw [UInt16.lt_iff_toNat_lt]
    have : (0x20 : UInt16).toNat = 32 := rfl
    have : (0xD800 : UInt16).toNat = 0xD800 := rfl
    omega

theorem spells_quoteFrom (s : JsString) : ∀ paired, Spells (quoteFrom paired s) s := by
  induction s with
  | nil => exact fun paired => spells_nil
  | cons c s ih =>
    intro paired
    rw [quoteFrom]
    split_ifs with hlead hescape
    · simp only [Bool.and_eq_true] at hlead
      obtain ⟨hquote, hslash, hc⟩ := not_special_of_isLead hlead.1
      exact (spells_unit hquote hslash hc).append (ih true)
    · exact (spells_unicodeEscape c).append (ih false)
    · exact (spells_quoteUnit c).append (ih false)

/-! ## Values -/

/-- Where a value is expected, the text is read as the value. -/
def Reads (numbers : Numbers Number) (text : JsString) (value : Value Number) : Prop :=
  ∀ stack, read numbers ⟨.value, stack⟩ text = some (finish value stack)

/-- The text is read as the value once a unit comes that a number cannot have. -/
def ReadsBefore (numbers : Numbers Number) (text : JsString) (value : Value Number) : Prop :=
  ∀ stack c, isNumberUnit c = false →
    read numbers ⟨.value, stack⟩ (text ++ [c]) = stepAfter (finish value stack) c

theorem step_finish (value : Value Number) (stack : List (Frame Number)) (c : UInt16) :
    step numbers (finish value stack) c = stepAfter (finish value stack) c := by
  rcases stack with _ | ⟨⟨elements⟩ | ⟨properties, key⟩, stack⟩
  · rfl
  · rfl
  · rfl

theorem Reads.before (h : Reads numbers text value) : ReadsBefore numbers text value := by
  intro stack c hc
  rw [read_append, h, Option.bind_some, read_cons, step_finish]
  simp

theorem reads_string (h : Spells text s) :
    Reads numbers (unit '"' :: text ++ [unit '"']) (.string s) := by
  intro stack
  have hspace : isSpace (unit '"') = false := by decide
  rw [List.cons_append, read_cons]
  have hstep : step numbers ⟨.value, stack⟩ (unit '"') = some ⟨.string .none [] false, stack⟩ := by
    simp [step, hspace, startValue]
  rw [hstep, Option.bind_some, read_append, h, Option.bind_some, read_cons]
  simp [step, stepString]

theorem reads_null : Reads numbers (units "null") .null := by
  intro stack
  cases stack <;> rfl

theorem readsBefore_one : ReadsBefore numbers (units "1") (.number numbers.one) := by
  intro stack c hc
  have hstart : step numbers ⟨.value, stack⟩ (unit '1') = some ⟨.number (units "1"), stack⟩ := by
    cases stack <;> rfl
  have hone : isNumber (units "1") = true := by decide
  show read numbers ⟨.value, stack⟩ (unit '1' :: [c]) = _
  rw [read_cons, hstart, Option.bind_some, read_cons]
  simp only [step, hc, hone, numbers.ofText_one, Bool.false_eq_true, if_false, if_true]
  simp

/-! ## Objects -/

/-- A member of an object's text, with what its key and its value are read as. -/
structure Member (Number : Type) where
  keyText : JsString
  valueText : JsString
  key : JsString
  value : Value Number

/-- The key and the value are spelled as what they are read as. -/
def Member.Spelled (numbers : Numbers Number) (member : Member Number) : Prop :=
  Spells member.keyText member.key ∧ ReadsBefore numbers member.valueText member.value

def Member.literal (member : Member Number) : JsString × JsString :=
  (unit '"' :: member.keyText ++ [unit '"'], member.valueText)

/-- The properties of an object once its members are read. -/
def withMembers (properties : List (JsString × Value Number)) (members : List (Member Number)) :
    List (JsString × Value Number) :=
  members.foldl (fun properties member => setProperty member.key member.value properties) properties

variable {member : Member Number} {members : List (Member Number)}
  {properties : List (JsString × Value Number)} {key : JsString} {phase : Phase Number}

theorem read_member (h : member.Spelled numbers) (hphase : phase = .firstKey ∨ phase = .key)
    (hc : isNumberUnit c = false) :
    read numbers ⟨phase, .object properties key :: stack⟩
        (member.literal.1 ++ unit ':' :: member.literal.2 ++ [c]) =
      stepAfter ⟨.next, .object (setProperty member.key member.value properties) [] :: stack⟩ c := by
  have hspace : isSpace (unit '"') = false := by decide
  have hclose : unit '"' ≠ unit '}' := by decide
  have hstart : step numbers ⟨phase, .object properties key :: stack⟩ (unit '"') =
      some ⟨.string .none [] true, .object properties key :: stack⟩ := by
    rcases hphase with rfl | rfl
    · simp [step, hspace, hclose]
    · simp [step, hspace]
  have hcolon : step numbers ⟨.colon, .object properties member.key :: stack⟩ (unit ':') =
      some ⟨.value, .object properties member.key :: stack⟩ := rfl
  have hend : step numbers ⟨.string .none ([] ++ member.key) true, .object properties key :: stack⟩
      (unit '"') = some ⟨.colon, .object properties member.key :: stack⟩ := by
    simp [step, stepString]
  unfold Member.literal
  rw [List.append_assoc, List.append_assoc, List.cons_append, read_cons, hstart, Option.bind_some, read_append,
    h.1, Option.bind_some, List.singleton_append, read_cons, hend, Option.bind_some, List.cons_append,
    read_cons, hcolon, Option.bind_some, h.2 _ c hc]
  rfl

/-- The members are read one after the other, up to the end of the object. -/
theorem read_members (hmembers : ∀ m ∈ member :: members, m.Spelled numbers)
    (hphase : phase = .firstKey ∨ phase = .key) :
    read numbers ⟨phase, .object properties key :: stack⟩
        ([unit ','].intercalate ((member :: members).map fun m => m.literal.1 ++ unit ':' :: m.literal.2) ++
          [unit '}']) =
      some (finish (.object (withMembers properties (member :: members))) stack) := by
  have hspaces : isSpace (unit ',') = false ∧ isSpace (unit '}') = false := by decide
  have hnumbers : isNumberUnit (unit ',') = false ∧ isNumberUnit (unit '}') = false := by decide
  have hcomma : unit '}' ≠ unit ',' := by decide
  induction members generalizing member properties phase key with
  | nil =>
    rw [List.map_singleton, List.intercalate_singleton, read_member (hmembers _ List.mem_cons_self) hphase
      hnumbers.2]
    simp [stepAfter, hspaces.2, hcomma, withMembers]
  | cons next members ih =>
    have hnext := @ih next (setProperty member.key member.value properties) [] .key
      (fun m hm => hmembers m (List.mem_cons_of_mem _ hm)) (.inr rfl)
    rw [List.map_cons, List.map_cons, List.intercalate_cons_cons, List.append_assoc, read_append,
      read_member (hmembers _ List.mem_cons_self) hphase hnumbers.1]
    simp only [stepAfter, hspaces.1, Bool.false_eq_true, if_false, if_true, Option.bind_some]
    exact hnext

theorem reads_object (hmembers : ∀ m ∈ members, m.Spelled numbers) :
    Reads numbers (objectText (members.map Member.literal)) (.object (withMembers [] members)) := by
  intro stack
  have hstart : step numbers ⟨.value, stack⟩ (unit '{') = some ⟨.firstKey, .object [] [] :: stack⟩ := by
    cases stack <;> rfl
  unfold objectText
  rw [List.cons_append, read_cons, hstart, Option.bind_some]
  cases members with
  | nil => rfl
  | cons member members =>
    rw [List.map_map]
    exact read_members hmembers (.inl rfl)

theorem Reads.parse_eq (h : Reads numbers text value) : parse numbers text = some value := by
  unfold parse
  rw [h]
  rfl

/-! ## The order of properties -/

section Properties

variable {β : Type} {entries : List (JsString × β)} {key : JsString} {b : β}

theorem insertProperty_eq_append (h : ∀ property ∈ entries, precedes key property.1 = false) :
    insertProperty key b entries = entries ++ [(key, b)] := by
  induction entries with
  | nil => rfl
  | cons property entries ih =>
    have hfirst : ¬ precedes key property.1 = true := by simp [h property List.mem_cons_self]
    rw [insertProperty, if_neg hfirst, ih fun p hp => h p (List.mem_cons_of_mem _ hp)]
    rfl

/-- Properties that are set in their order stay in it. -/
theorem foldl_setProperty (h : Ordered entries) :
    entries.foldl (fun properties entry => setProperty entry.1 entry.2 properties) [] = entries := by
  induction entries using List.reverseRecOn with
  | nil => rfl
  | append_singleton entries entry ih =>
    obtain ⟨hnodup, hordered⟩ := h
    rw [List.map_append, List.nodup_append] at hnodup
    rw [List.pairwise_append] at hordered
    have hnew : entry.1 ∉ entries.map Prod.fst := fun hmem =>
      hnodup.2.2 _ hmem entry.1 (by simp) rfl
    rw [List.foldl_append, ih ⟨hnodup.1, hordered.1⟩, List.foldl_cons, List.foldl_nil, setProperty, if_neg hnew]
    exact insertProperty_eq_append fun property hmem => hordered.2.2 property hmem entry (by simp)

end Properties

end Staaash.Library.Json
