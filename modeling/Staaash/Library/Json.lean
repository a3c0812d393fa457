import Mathlib.Algebra.Ring.Nat
import Staaash.Library.JsStrings

/-!
# JSON

`JSON.stringify` and `JSON.parse`. The reader goes through a text unit by unit, with the arrays and objects
that are open on a stack, so a text that is put together is read part by part. How numbers are read and
written is a parameter.
-/

namespace Staaash.Library.Json

/-! ## Values -/

inductive Value (Number : Type)
  | null
  | bool (b : Bool)
  | number (n : Number)
  | string (s : JsString)
  | array (elements : List (Value Number))
  | object (properties : List (JsString × Value Number))

/-- The array index that a property key stands for. Nothing else is ordered by its number. -/
def arrayIndex (key : JsString) : Option Nat :=
  if key = [] || !key.all isDigit || (key.length > 1 && key.head? = some (unit '0')) then none
  else
    if decimal key < 2 ^ 32 - 1 then some (decimal key) else none

/-- Array indices come in ascending order and before all other keys, which keep the order they came in. -/
def precedes (key other : JsString) : Bool :=
  match arrayIndex key, arrayIndex other with
  | some i, some j => i < j
  | some _, none => true
  | none, _ => false

section Properties

variable {β : Type}

def insertProperty (key : JsString) (value : β) : List (JsString × β) → List (JsString × β)
  | [] => [(key, value)]
  | property :: rest =>
    if precedes key property.1 then (key, value) :: property :: rest
    else property :: insertProperty key value rest

/-- `object[key] = value`, for an own property. -/
def setProperty (key : JsString) (value : β) (properties : List (JsString × β)) : List (JsString × β) :=
  if key ∈ properties.map Prod.fst then
    properties.map fun property => if property.1 = key then (key, value) else property
  else insertProperty key value properties

/-- The properties of an object, in the order JavaScript has them in. -/
def Ordered (properties : List (JsString × β)) : Prop :=
  (properties.map Prod.fst).Nodup ∧ properties.Pairwise fun a b => precedes b.1 a.1 = false

instance (properties : List (JsString × β)) : Decidable (Ordered properties) :=
  inferInstanceAs (Decidable (_ ∧ _))

def getProperty (key : JsString) (properties : List (JsString × β)) : Option β :=
  (properties.find? fun property => property.1 = key).map Prod.snd

end Properties

/-- How the numbers of a program are read and written. -/
structure Numbers (Number : Type) where
  ofText : JsString → Number
  toText : Number → JsString
  one : Number
  ofText_one : ofText (units "1") = one
  toText_one : toText one = units "1"

variable {Number : Type} (numbers : Numbers Number)

/-! ## `JSON.stringify` -/

def isLead (c : UInt16) : Bool := 0xD800 ≤ c && c ≤ 0xDBFF

def isTrail (c : UInt16) : Bool := 0xDC00 ≤ c && c ≤ 0xDFFF

def hexDigit (n : Nat) : UInt16 := unit (Nat.digitChar n)

def unicodeEscape (c : UInt16) : JsString :=
  [unit '\\', unit 'u', hexDigit (c.toNat / 4096), hexDigit (c.toNat / 256 % 16),
    hexDigit (c.toNat / 16 % 16), hexDigit (c.toNat % 16)]

/-- The letter of a control character's short escape. -/
def shortEscape (c : UInt16) : Option UInt16 :=
  if c = 8 then some (unit 'b') else if c = 9 then some (unit 't') else if c = 10 then some (unit 'n')
  else if c = 12 then some (unit 'f') else if c = 13 then some (unit 'r')
  else if c = unit '"' || c = unit '\\' then some c else none

def quoteUnit (c : UInt16) : JsString :=
  match shortEscape c with
  | some letter => [unit '\\', letter]
  | none => if c < 0x20 then unicodeEscape c else [c]

/-- The inside of a string literal; `paired` says that the unit before is a lead surrogate and the first
one its trail. Surrogates that are alone are escaped. -/
def quoteFrom (paired : Bool) : JsString → JsString
  | [] => []
  | c :: rest =>
    if isLead c && rest.head?.any isTrail then c :: quoteFrom true rest
    else if isLead c || (isTrail c && !paired) then unicodeEscape c ++ quoteFrom false rest
    else quoteUnit c ++ quoteFrom false rest

def quote (s : JsString) : JsString := unit '"' :: quoteFrom false s ++ [unit '"']

def arrayText (elements : List JsString) : JsString :=
  unit '[' :: [unit ','].intercalate elements ++ [unit ']']

/-- An object's text, of literals for the keys and texts for the values. -/
def objectText (members : List (JsString × JsString)) : JsString :=
  unit '{' :: [unit ','].intercalate (members.map fun (key, value) => key ++ unit ':' :: value) ++
    [unit '}']

mutual

def stringify : Value Number → JsString
  | .null => units "null"
  | .bool b => if b then units "true" else units "false"
  | .number n => numbers.toText n
  | .string s => quote s
  | .array elements => arrayText (stringifyElements elements)
  | .object properties => objectText (stringifyProperties properties)

def stringifyElements : List (Value Number) → List JsString
  | [] => []
  | element :: rest => stringify element :: stringifyElements rest

def stringifyProperties : List (JsString × Value Number) → List (JsString × JsString)
  | [] => []
  | (key, value) :: rest => (quote key, stringify value) :: stringifyProperties rest

end

/-! ## `JSON.parse` -/

inductive Escape
  | none
  | backslash
  /-- After `\u`, with some digits left to read. -/
  | hex (left : Nat) (read : Nat)

inductive Frame (Number : Type)
  | array (elements : List (Value Number))
  /-- The key is that of the property whose value comes next. -/
  | object (properties : List (JsString × Value Number)) (key : JsString)

/-- What the reader is in the middle of, or what it expects. -/
inductive Phase (Number : Type)
  | value
  | firstElement
  | firstKey
  | key
  | colon
  | string (escape : Escape) (read : JsString) (isKey : Bool)
  | number (token : JsString)
  | literal (left : JsString) (value : Value Number)
  /-- A comma, or the end of the array or object. -/
  | next
  | done (value : Value Number)

structure Reading (Number : Type) where
  phase : Phase Number
  stack : List (Frame Number)

def isSpace (c : UInt16) : Bool := c = 9 || c = 10 || c = 13 || c = unit ' '

def hexValue (c : UInt16) : Option Nat :=
  if unit '0' ≤ c && c ≤ unit '9' then some (c.toNat - 48)
  else if unit 'a' ≤ c && c ≤ unit 'f' then some (c.toNat - 87)
  else if unit 'A' ≤ c && c ≤ unit 'F' then some (c.toNat - 55)
  else none

def unescape (c : UInt16) : Option UInt16 :=
  if c = unit 'b' then some 8 else if c = unit 't' then some 9 else if c = unit 'n' then some 10
  else if c = unit 'f' then some 12 else if c = unit 'r' then some 13
  else if c = unit '"' || c = unit '\\' || c = unit '/' then some c else none

def isNumberUnit (c : UInt16) : Bool :=
  isDigit c || c = unit '-' || c = unit '+' || c = unit '.' || c = unit 'e' || c = unit 'E'

/-- What comes after at least one digit. -/
def afterDigits (text : JsString) : Option JsString :=
  if text.head?.any isDigit then some (text.dropWhile isDigit) else none

def isExponent : JsString → Bool
  | [] => true
  | c :: rest =>
    (c = unit 'e' || c = unit 'E') &&
      afterDigits (if rest.head? = some (unit '+') || rest.head? = some (unit '-') then rest.tail else rest) =
        some []

def isFraction (text : JsString) : Bool :=
  if text.head? = some (unit '.') then (afterDigits text.tail).any isExponent else isExponent text

/-- The token is a number by the grammar. -/
def isNumber (token : JsString) : Bool :=
  let integer := if token.head? = some (unit '-') then token.tail else token
  if integer.head? = some (unit '0') then isFraction integer.tail
  else (afterDigits integer).any isFraction

/-- A value has been read. -/
def finish (value : Value Number) : List (Frame Number) → Reading Number
  | [] => ⟨.done value, []⟩
  | .array elements :: stack => ⟨.next, .array (elements ++ [value]) :: stack⟩
  | .object properties key :: stack => ⟨.next, .object (setProperty key value properties) [] :: stack⟩

/-- The first unit of a value. -/
def startValue (c : UInt16) (stack : List (Frame Number)) : Option (Reading Number) :=
  if c = unit '"' then some ⟨.string .none [] false, stack⟩
  else if c = unit '{' then some ⟨.firstKey, .object [] [] :: stack⟩
  else if c = unit '[' then some ⟨.firstElement, .array [] :: stack⟩
  else if c = unit 't' then some ⟨.literal (units "rue") (.bool true), stack⟩
  else if c = unit 'f' then some ⟨.literal (units "alse") (.bool false), stack⟩
  else if c = unit 'n' then some ⟨.literal (units "ull") .null, stack⟩
  else if isDigit c || c = unit '-' then some ⟨.number [c], stack⟩
  else none

/-- A unit after a value. -/
def stepAfter (reading : Reading Number) (c : UInt16) : Option (Reading Number) :=
  if isSpace c then some reading
  else
    match reading.stack with
    | [] => none
    | .array elements :: stack =>
      if c = unit ',' then some ⟨.value, .array elements :: stack⟩
      else if c = unit ']' then some (finish (.array elements) stack)
      else none
    | .object properties key :: stack =>
      if c = unit ',' then some ⟨.key, .object properties key :: stack⟩
      else if c = unit '}' then some (finish (.object properties) stack)
      else none

def stepString (escape : Escape) (read : JsString) (isKey : Bool) (stack : List (Frame Number)) (c : UInt16) :
    Option (Reading Number) :=
  match escape with
  | .none =>
    if c = unit '"' then
      match isKey, stack with
      | true, .object properties _ :: stack => some ⟨.colon, .object properties read :: stack⟩
      | true, _ => none
      | false, stack => some (finish (.string read) stack)
    else if c = unit '\\' then some ⟨.string .backslash read isKey, stack⟩
    else if c < 0x20 then none
    else some ⟨.string .none (read ++ [c]) isKey, stack⟩
  | .backslash =>
    if c = unit 'u' then some ⟨.string (.hex 4 0) read isKey, stack⟩
    else (unescape c).map fun c => ⟨.string .none (read ++ [c]) isKey, stack⟩
  | .hex left value =>
    (hexValue c).map fun digit =>
      if left = 1 then ⟨.string .none (read ++ [UInt16.ofNat (16 * value + digit)]) isKey, stack⟩
      else ⟨.string (.hex (left - 1) (16 * value + digit)) read isKey, stack⟩

def step (reading : Reading Number) (c : UInt16) : Option (Reading Number) :=
  match reading.phase, reading.stack with
  | .value, stack => if isSpace c then some reading else startValue c stack
  | .firstElement, stack =>
    if isSpace c then some reading
    else if c = unit ']' then some (finish (.array []) stack.tail)
    else startValue c stack
  | .firstKey, stack =>
    if isSpace c then some reading
    else if c = unit '}' then some (finish (.object []) stack.tail)
    else if c = unit '"' then some ⟨.string .none [] true, stack⟩
    else none
  | .key, stack =>
    if isSpace c then some reading
    else if c = unit '"' then some ⟨.string .none [] true, stack⟩
    else none
  | .colon, stack =>
    if isSpace c then some reading else if c = unit ':' then some ⟨.value, stack⟩ else none
  | .string escape read isKey, stack => stepString escape read isKey stack c
  | .number token, stack =>
    if isNumberUnit c then some ⟨.number (token ++ [c]), stack⟩
    else if isNumber token then stepAfter (finish (.number (numbers.ofText token)) stack) c
    else none
  | .literal left value, stack =>
    if left.head? = some c then
      some (if left.length = 1 then finish value stack else ⟨.literal left.tail value, stack⟩)
    else none
  | .next, _ => stepAfter reading c
  | .done _, _ => stepAfter reading c

def read (reading : Reading Number) (text : JsString) : Option (Reading Number) :=
  text.foldlM (step numbers) reading

/-- `JSON.parse`; nothing for a `SyntaxError`. -/
def parse (text : JsString) : Option (Value Number) :=
  match read numbers ⟨.value, []⟩ text with
  | some ⟨.done value, _⟩ => some value
  | some ⟨.number token, []⟩ => if isNumber token then some (.number (numbers.ofText token)) else none
  | _ => none

end Staaash.Library.Json
