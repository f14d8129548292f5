import Code365.Lib.CString
import Code365.Lib.Double

/-! # cJSON and its wrapper (`rjcore_linux/interfaces/common/json.cpp`, `rc_json.cpp`)

A `char *` is the text from there to the NUL, a `cJSON *` is `NULL` or an item with the chain of the
items after it.  The parser takes a text and returns what it has read with the rest of the text; its
recursion is bounded by `fuel`, of which `cJsonParse` gives enough for any text.  The loops of
`parse_array` and `parse_object` are one function with a parameter that tells whether the entries
have names, and so are those of `print_array` and `print_object`.

A number that fits into an `int` and has neither fraction nor exponent is read exactly; for all
others `parse_number` computes with doubles. -/

namespace Code365.Json

open CString

abbrev Text := List Char

/-- `cJSON_False`, `cJSON_True` and so on. -/
inductive Kind where
  | false
  | true
  | null
  | number
  /-- A number whose `valuedouble` is not its `valueint`. -/
  | real (valuedouble : Double)
  | string
  | array
  | object
deriving DecidableEq, Repr

/-- A `cJSON *`; the `valuedouble` of a number is in its type if it is not `valueint`, and `prev` is
never read. -/
inductive CJson where
  | null
  | item (type : Kind) (valuestring : Option Text) (valueint : ℤ) (string : Option Text) (child next : CJson)
deriving DecidableEq, Repr

/-- Why there is no result. -/
inductive Stop where
  /-- The parser returns `NULL`. -/
  | fail
  /-- The behaviour is undefined. -/
  | undefined
deriving DecidableEq, Repr

abbrev Result := Except Stop

/-! ### Parsing -/

def skip (s : Text) : Text := s.dropWhile fun c => c.toNat ≤ 32

def hexValue (c : Char) : Option ℕ :=
  if '0' ≤ c ∧ c ≤ '9' then some (c.toNat - '0'.toNat)
  else if 'A' ≤ c ∧ c ≤ 'F' then some (10 + c.toNat - 'A'.toNat)
  else if 'a' ≤ c ∧ c ≤ 'f' then some (10 + c.toNat - 'a'.toNat)
  else none

/-- `parse_hex4`: 0 unless there are four hexadecimal digits. -/
def parseHex4 : Text → ℕ
  | a :: b :: c :: d :: _ =>
    match hexValue a, hexValue b, hexValue c, hexValue d with
    | some a, some b, some c, some d => ((a * 16 + b) * 16 + c) * 16 + d
    | _, _, _, _ => 0
  | _ => 0

/-- The bytes that `parse_string` writes for a code point: `(uc | 0x80) & 0xBF` is
`0x80 + uc % 0x40`. -/
def utf8 (uc : ℕ) : Text :=
  if uc < 0x80 then [Char.ofNat uc]
  else if uc < 0x800 then [Char.ofNat (0xC0 + uc / 0x40), Char.ofNat (0x80 + uc % 0x40)]
  else if uc < 0x10000 then
    [Char.ofNat (0xE0 + uc / 0x1000), Char.ofNat (0x80 + uc / 0x40 % 0x40), Char.ofNat (0x80 + uc % 0x40)]
  else
    [Char.ofNat (0xF0 + uc / 0x40000), Char.ofNat (0x80 + uc / 0x1000 % 0x40),
      Char.ofNat (0x80 + uc / 0x40 % 0x40), Char.ofNat (0x80 + uc % 0x40)]

/-- The first half of a surrogate pair. -/
def High (uc : ℕ) : Prop := 0xD800 ≤ uc ∧ uc ≤ 0xDBFF

/-- The second half of a surrogate pair. -/
def Low (uc : ℕ) : Prop := 0xDC00 ≤ uc ∧ uc ≤ 0xDFFF

instance (uc : ℕ) : Decidable (High uc) := inferInstanceAs (Decidable (_ ∧ _))

instance (uc : ℕ) : Decidable (Low uc) := inferInstanceAs (Decidable (_ ∧ _))

/-- What is written for a code that is not the first half of a pair. -/
def single (uc : ℕ) : Text := if Low uc ∨ uc = 0 then [] else utf8 uc

/-- What is written for a first half and the code after it. -/
def pair (uc uc2 : ℕ) : Text := if Low uc2 then utf8 (0x10000 + (uc % 0x400 * 0x400 + uc2 % 0x400)) else []

/-- `case 'u'`: the bytes written and the text after the escape.  The pointer leaves the text if
there is not enough of it. -/
def parseUnicode (s : Text) : Result (Text × Text) :=
  if s.length < 4 then .error .undefined
  else if High (parseHex4 s) then
    if ['\\', 'u'].isPrefixOf (s.drop 4) then
      if s.length < 10 then .error .undefined
      else .ok (pair (parseHex4 s) (parseHex4 (s.drop 6)), s.drop 10)
    else .ok ([], s.drop 4)
  else .ok (single (parseHex4 s), s.drop 4)

/-- The escape after a backslash. -/
def parseEscape : Text → Result (Text × Text)
  | [] => .error .undefined
  | c :: s =>
    if c = 'b' then .ok (['\x08'], s)
    else if c = 'f' then .ok (['\x0c'], s)
    else if c = 'n' then .ok (['\n'], s)
    else if c = 'r' then .ok (['\r'], s)
    else if c = 't' then .ok (['\t'], s)
    else if c = 'u' then parseUnicode s
    else .ok ([c], s)

/-- The second loop of `parse_string`: what it writes, and the text from the closing quote on. -/
def unescape : ℕ → Text → Result (Text × Text)
  | 0, _ => .error .undefined
  | _ + 1, [] => .ok ([], [])
  | fuel + 1, c :: s =>
    if c = '"' then .ok ([], c :: s)
    else if c = '\\' then do
      let (bytes, s) ← parseEscape s
      let (out, rest) ← unescape fuel s
      return (bytes ++ out, rest)
    else do
      let (out, rest) ← unescape fuel s
      return (c :: out, rest)

/-- The first loop of `parse_string`, which counts `len`. -/
def scanLength : Text → Result ℕ
  | [] => .ok 0
  | c :: s =>
    if c = '"' then .ok 0
    else if c = '\\' then
      match s with
      | [] => .error .undefined
      | _ :: s => (scanLength s).map (· + 1)
    else (scanLength s).map (· + 1)

/-- `parse_string`: the string and the text after it.  The buffer has room for `len` bytes and the
NUL. -/
def parseString : Text → Result (Text × Text)
  | [] => .error .fail
  | c :: s =>
    if c = '"' then do
      let len ← scanLength s
      let (out, rest) ← unescape (s.length + 1) s
      if len < out.length then .error .undefined
      else return (out, rest.drop 1)
    else .error .fail

/-- The digits of `parse_number`, from the first on, which is not 0. -/
def parseDigits (s : Text) : ℕ × Text :=
  match s with
  | [] => (0, [])
  | c :: _ => if '1' ≤ c ∧ c ≤ '9' then (digitsValue 10 s, s.dropWhile Char.isDigit) else (0, s)

/-- Whether `parse_number` goes on with a fraction or an exponent. -/
def goesOn : Text → Bool
  | '.' :: c :: _ => c.isDigit
  | c :: _ => c = 'e' || c = 'E'
  | [] => false

/-- `parse_number` without its sign. -/
def parseUnsigned (s : Text) : ℕ × Text :=
  match s with
  | '0' :: s => parseDigits s
  | s => parseDigits s

/-- The fields that `parse_value` gives an item. -/
structure Value where
  type : Kind
  valuestring : Option Text
  valueint : ℤ
  child : CJson
deriving DecidableEq, Repr

def Value.item (v : Value) (string : Option Text) (next : CJson) : CJson :=
  .item v.type v.valuestring v.valueint string v.child next

def createNumber (num : ℤ) : Value := ⟨.number, none, num, .null⟩

/-- The item of a double. -/
def createDouble (num : Double) : Value :=
  if num = .finite num.toInt then createNumber num.toInt else ⟨.real num, none, num.toInt, .null⟩

/-- The digits after a point, if there are any. -/
def parseFraction : Text → Text × Text
  | '.' :: c :: s =>
    if c.isDigit then ((c :: s).takeWhile Char.isDigit, (c :: s).dropWhile Char.isDigit)
    else ([], '.' :: c :: s)
  | s => ([], s)

/-- `subscale`, an `int` that overflows silently. -/
def parseSubscale (s : Text) : Int32 × Text :=
  ((s.takeWhile Char.isDigit).foldl (fun subscale c =>
    subscale * 10 + Int32.ofNat (digitValue c)) 0, s.dropWhile Char.isDigit)

/-- The exponent, if there is one. -/
def parseExponent : Text → Int32 × Text
  | c :: s =>
    if c = 'e' ∨ c = 'E' then
      match s with
      | '+' :: s => parseSubscale s
      | '-' :: s => (-(parseSubscale s).1, (parseSubscale s).2)
      | s => parseSubscale s
    else (0, c :: s)
  | [] => (0, [])

/-- `n = n * 10.0 + digit` for each digit. -/
def digitsDouble (ds : Text) : Double :=
  ds.foldl (fun n c => (n.mul (.finite 10)).add (.finite (digitValue c))) (.finite 0)

/-- The sign, and what follows it. -/
def parseSign : Text → Bool × Text
  | '-' :: s => (true, s)
  | s => (false, s)

/-- `parse_number`, with an exact result if it is an `int` without fraction and exponent: the
doubles are exact there. -/
def parseNumber (s : Text) : Value × Text :=
  let (negative, s) := parseSign s
  let (n, rest) := parseUnsigned s
  let v : ℤ := if negative then -n else n
  if goesOn rest ∨ v < -2 ^ 31 ∨ 2 ^ 31 ≤ v then
    let (fraction, rest) := parseFraction rest
    let (subscale, rest) := parseExponent rest
    let sign : Double := .finite (if negative then -1 else 1)
    let digits := digitsDouble (Nat.toDigits 10 n ++ fraction)
    (createDouble ((sign.mul digits).mul (Double.pow10 (subscale.toInt - fraction.length))), rest)
  else (createNumber v, rest)

/-- The brackets of an object, whose entries are named, and of an array. -/
def openBracket (named : Bool) : Char := if named then '\x7b' else '['

def closeBracket (named : Bool) : Char := if named then '\x7d' else ']'

def kind (named : Bool) : Kind := if named then .object else .array

/-- The name of an entry and the colon after it. -/
def parseName (named : Bool) (s : Text) : Result (Option Text × Text) :=
  if named then do
    let (name, s) ← parseString (skip s)
    match skip s with
    | ':' :: s => return (some name, s)
    | _ => .error .fail
  else return (none, s)

/-- `parse_array` and `parse_object`, after the bracket; `entries` reads the entries if there are
any. -/
def parseContainer (named : Bool) (entries : Text → Result (CJson × Text))
    (s : Text) : Result (Value × Text) :=
  if (skip s).head? = some (closeBracket named) then .ok (⟨kind named, none, 0, .null⟩, (skip s).drop 1)
  else do
    let (child, rest) ← entries (skip s)
    return (⟨kind named, none, 0, child⟩, rest)

def parseArray : (Text → Result (CJson × Text)) → Text → Result (Value × Text) := parseContainer false

def parseObject : (Text → Result (CJson × Text)) → Text → Result (Value × Text) := parseContainer true

mutual

def parseValue : ℕ → Text → Result (Value × Text)
  | 0, _ => .error .undefined
  | fuel + 1, s =>
    if "null".toList.isPrefixOf s then .ok (⟨.null, none, 0, .null⟩, s.drop 4)
    else if "false".toList.isPrefixOf s then .ok (⟨.false, none, 0, .null⟩, s.drop 5)
    else if "true".toList.isPrefixOf s then .ok (⟨.true, none, 1, .null⟩, s.drop 4)
    else match s with
      | [] => .error .fail
      | c :: t =>
        if c = '"' then (parseString s).map fun r => (⟨.string, some r.1, 0, .null⟩, r.2)
        else if c = '-' ∨ c.isDigit then .ok (parseNumber s)
        else if c = '[' then parseArray (parseEntries false fuel) t
        else if c = '\x7b' then parseObject (parseEntries true fuel) t
        else .error .fail

/-- The entries of an array or an object, and the text after the closing bracket. -/
def parseEntries (named : Bool) : ℕ → Text → Result (CJson × Text)
  | 0, _ => .error .undefined
  | fuel + 1, s => do
    let (name, s) ← parseName named s
    let (v, s) ← parseValue fuel (skip s)
    match skip s with
    | ',' :: s => do
      let (next, rest) ← parseEntries named fuel s
      return (v.item name next, rest)
    | c :: rest => if c = closeBracket named then return (v.item name .null, rest) else .error .fail
    | [] => .error .fail

end

/-- `cJSON_Parse`; what follows the value is not looked at. -/
def cJsonParse (s : Text) : Result CJson :=
  match parseValue (2 * s.length + 1) (skip s) with
  | .ok (v, _) => .ok (v.item none .null)
  | .error .fail => .ok .null
  | .error .undefined => .error .undefined

/-! ### Printing -/

/-- `%04x`. -/
def hex4 (n : ℕ) : Text :=
  [Nat.digitChar (n / 4096 % 16), Nat.digitChar (n / 256 % 16), Nat.digitChar (n / 16 % 16),
    Nat.digitChar (n % 16)]

def escaped (c : Char) : Text :=
  if 31 < c.toNat ∧ c ≠ '"' ∧ c ≠ '\\' then [c]
  else '\\' ::
    if c = '\\' then ['\\']
    else if c = '"' then ['"']
    else if c = '\x08' then ['b']
    else if c = '\x0c' then ['f']
    else if c = '\n' then ['n']
    else if c = '\r' then ['r']
    else if c = '\t' then ['t']
    else 'u' :: hex4 c.toNat

def printStringPtr : Option Text → Text
  | none => []
  | some s => '"' :: s.flatMap escaped ++ ['"']

def dblEpsilon : Double := .finite (1 / 2 ^ 52)

def printNumber (valueint : ℤ) (d : Double) : Text :=
  if ((Double.finite valueint).sub d).fabs.le dblEpsilon ∧ d.le (.finite (2 ^ 31 - 1)) ∧
    (Double.finite (-2 ^ 31)).le d then
    decimal valueint
  else if (d.floor.sub d).fabs.le dblEpsilon ∧ d.fabs.lt (Double.round (10 ^ 60)) then d.fixed 0
  else if d.fabs.lt (Double.round (1 / 10 ^ 6)) ∨ (Double.finite (10 ^ 9)).lt d.fabs then d.scientific
  else d.fixed 6

/-- The entries of an array or an object with commas between them; a number that is an `int` is
printed as one. -/
def printEntries (named : Bool) : CJson → Text
  | .null => []
  | .item type valuestring valueint string child next =>
    (if named then printStringPtr string ++ [':'] else []) ++
    (match type with
      | .null => "null".toList
      | .false => "false".toList
      | .true => "true".toList
      | .number => decimal valueint
      | .real d => printNumber valueint d
      | .string => printStringPtr valuestring
      | .array => openBracket Bool.false :: printEntries Bool.false child ++ [closeBracket Bool.false]
      | .object => openBracket Bool.true :: printEntries Bool.true child ++ [closeBracket Bool.true]) ++
    (match next with
      | .null => []
      | next => ',' :: printEntries named next)

/-- `print_value` without formatting. -/
def printValue : CJson → Text
  | .null => []
  | .item type valuestring valueint string child _ =>
    printEntries false (.item type valuestring valueint string child .null)

/-! ### Items -/

/-- Whether `cJSON_strcasecmp` returns 0. -/
def strcasecmp : Text → Text → Bool
  | [], [] => true
  | c :: s, d :: t => c.toLower = d.toLower && strcasecmp s t
  | _, _ => false

def isNamed (string : Option Text) (key : Text) : Bool :=
  match string with
  | none => false
  | some s => strcasecmp s key

/-- The loop of `cJSON_GetObjectItem`. -/
def findItem (key : Text) : CJson → CJson
  | .null => .null
  | .item type valuestring valueint string child next =>
    if isNamed string key then .item type valuestring valueint string child next else findItem key next

def getObjectItem (object : CJson) (key : Text) : Result CJson :=
  match object with
  | .null => .error .undefined
  | .item _ _ _ _ child _ => .ok (findItem key child)

def append : CJson → CJson → CJson
  | .null, x => x
  | .item type valuestring valueint string child next, x =>
      .item type valuestring valueint string child (append next x)

/-- `cJSON_AddItemToObject` with a new item. -/
def addItemToObject (object : CJson) (key : Text) (v : Value) : Result CJson :=
  match object with
  | .null => .error .undefined
  | .item type valuestring valueint string child next =>
    .ok (.item type valuestring valueint string (append child (v.item (some key) .null)) next)

def createObject : Value := ⟨.object, none, 0, .null⟩

def createString (string : Text) : Value := ⟨.string, some string, 0, .null⟩

def createBool (b : Bool) : Value := ⟨if b then .true else .false, none, 0, .null⟩

/-! ### `RcJson` -/

/-- `__init_key_node`: the item, `NULL` if there is none. -/
def initKeyNode (input key : Text) : Result CJson := do
  let json ← cJsonParse (Text.cstr input)
  getObjectItem json (Text.cstr key)

def rcJsonGetString (input key : Text) : Result Text := do
  match ← initKeyNode input key with
  | .null => return []
  | .item _ valuestring _ _ _ _ => return valuestring.getD []

def errorInt : ℤ := -2 ^ 31

def rcJsonGetInt (input key : Text) : Result ℤ := do
  match ← initKeyNode input key with
  | .null => return errorInt
  | .item _ _ valueint _ _ _ => return valueint

def rcJsonGetChild (input key : Text) : Result Text := do
  match ← initKeyNode input key with
  | .null => return []
  | pMsg => return printValue pMsg

def initCJson (input : Text) : Result CJson :=
  if input = [] then .ok (createObject.item none .null) else cJsonParse (Text.cstr input)

/-- The new `input`. -/
def rcJsonAdd (input key : Text) (v : Value) : Result Text := do
  let json ← initCJson input
  let json ← addItemToObject json (Text.cstr key) v
  return printValue json

def rcJsonAddString (input key value : Text) : Result Text :=
  rcJsonAdd input key (createString (Text.cstr value))

def rcJsonAddInt (input key : Text) (value : ℤ) : Result Text := rcJsonAdd input key (createNumber value)

def rcJsonAddBool (input key : Text) (value : Bool) : Result Text := rcJsonAdd input key (createBool value)

/-- `rc_json_add_child`, which adds a string. -/
def rcJsonAddChild (input key value : Text) : Result Text :=
  rcJsonAdd input key (createString (Text.cstr value))

/-! ### A caller -/

end Code365.Json
