import Code365.Lib.CString
import Code365.Ini.Dictionary

/-! # The ini parser (`utils/iniparser.cpp`)

`iniparserLine` reads one line by the code's own sequence of `sscanf` patterns, `Loader.step` is one
round of the loop of `iniparser_load` over the pieces `fgets` returns, `iniparserLoad` the whole
function; `iniparserDumpIni` writes a dictionary back.  A file is the list of its characters, a
`char *` the list of its characters before the NUL.

The loader keeps the section in force and the text of a line that a backslash continues.  Its only
undefined behaviours are the ones of the code: a line that starts with a NUL (`line[-1]` is read), a
section and a key that overflow `tmp`, and freeing a dictionary whose arrays were lost. -/

namespace Code365.Ini

open CString Text

def ASCIILINESZ : ℕ := 1024

def strlwc (s : List Char) : List Char := ((cstr s).take ASCIILINESZ).map Char.toLower

def strstrip (s : List Char) : List Char := strip s

/-! ### Sections and look-up -/

/-- The keys that `iniparser_getnsec` and `iniparser_getsecname` take for sections, in slot
order. -/
def sections (d : Dictionary) : List (List Char) := d.keys.filter (fun key => ':' ∉ key)

def iniparserGetnsec (d : Dictionary) : ℕ := (sections d).length

def iniparserGetsecname (d : Dictionary) (n : ℕ) : Option (List Char) := (sections d)[n]?

def iniparserGetstring (d : Dictionary) (key : List Char) : Option (Option (List Char)) :=
  dictionaryGet d (strlwc key)

/-- `iniparser_getint`; a `NULL` value makes `strtol` read through it. -/
def iniparserGetint (d : Dictionary) (key : List Char) (notfound : Int32) : Option Int32 :=
  match iniparserGetstring d key with
  | none => some notfound
  | some none => none
  | some (some str) => some (Int32.ofInt (strtol str))

def iniparserSetInt (grow : ℕ → Option Lost) (d : Dictionary) (entry : List Char) (val : Int32) :
    Except Lost Dictionary :=
  dictionarySet grow d (strlwc entry) (some (decimal val.toInt))

/-! ### Writing -/

/-- `%-30s`. -/
def pad30 (s : List Char) : List Char := s ++ List.replicate (30 - s.length) ' '

/-- The text of an entry under the header of its section, without the newline. -/
def entryLine (name val : List Char) : List Char := pad30 name ++ [' ', '=', ' '] ++ val

/-- The text of an entry in a file without sections; a `NULL` is printed as `(null)`. -/
def bareLine (s : Slot) : List Char :=
  s.key ++ [' ', '=', ' '] ++ s.val.getD ['(', 'n', 'u', 'l', 'l', ')']

def header (secname : List Char) : List Char := '[' :: (secname ++ [']'])

/-- The lines that the dump of one section writes. -/
def sectionLines (d : Dictionary) (secname : List Char) : List (List Char) :=
  let keym := secname ++ [':']
  [] :: header secname ::
    (d.entries.filter (fun s => keym.isPrefixOf s.key)).map
      (fun s => entryLine (s.key.drop (secname.length + 1)) (s.val.getD []))

def dumpLines (d : Dictionary) : List (List Char) :=
  if iniparserGetnsec d < 1 then d.entries.map bareLine
  else
    (List.range (iniparserGetnsec d)).flatMap
      (fun i => ((iniparserGetsecname d i).map (sectionLines d)).getD []) ++ [[]]

/-- `iniparser_dump_ini`; a section name that does not fit `keym` with its colon overflows it. -/
def iniparserDumpIni (d : Dictionary) : Option (List Char) :=
  if ∃ secname ∈ sections d, ASCIILINESZ < secname.length + 1 then none
  else some ((dumpLines d).flatMap (fun line => line ++ ['\n']))

/-! ### Reading a line -/

inductive LineStatus
  | lineError | lineEmpty | lineComment
  | lineSection (sec : List Char)
  | lineValue (key value : List Char)
  deriving DecidableEq

/-- `sscanf(line, "%[^=] = <quote>%[..]", key, value) == 2`. -/
def scanKeyValue (quote : List Char) (p : Char → Bool) (line : List Char) : Option (List Char × List Char) :=
  match scanSet (· ≠ '=') line with
  | none => none
  | some (key, rest) =>
    match literal ['='] (rest.dropWhile isspace) with
    | none => none
    | some rest =>
      match literal quote (rest.dropWhile isspace) with
      | none => none
      | some rest => (scanSet p rest).map (fun r => (key, r.1))

def scanDouble : List Char → Option (List Char × List Char) := scanKeyValue ['"'] (· ≠ '"')

def scanSingle : List Char → Option (List Char × List Char) := scanKeyValue ['\''] (· ≠ '\'')

def scanPlain : List Char → Option (List Char × List Char) := scanKeyValue [] (fun c => c ≠ ';' ∧ c ≠ '#')

def scanComment : List Char → Option (List Char × List Char) := scanKeyValue [] (fun c => c = ';' ∨ c = '#')

/-- `sscanf(line, "%[^=] %[=]", key, value) == 2`. -/
def scanBare (line : List Char) : Option (List Char × List Char) :=
  match scanSet (· ≠ '=') line with
  | none => none
  | some (key, rest) => (scanSet (· = '=') (rest.dropWhile isspace)).map (fun r => (key, r.1))

/-- `sscanf` cannot read `""` and `''` as empty values. -/
def emptyQuotes (value : List Char) : List Char :=
  if value = ['"', '"'] ∨ value = ['\'', '\''] then [] else value

/-- The `section` buffer after a header; `[]` matches nothing and leaves the buffer as it was. -/
def scanSection (sec line : List Char) : List Char :=
  strlwc (strstrip (((scanSet (· ≠ ']') line.tail).map Prod.fst).getD sec))

/-- The body of `iniparser_line` once `line` holds the stripped input. -/
def classify (sec line : List Char) : LineStatus :=
  if line.length < 1 then .lineEmpty
  else if line.head? = some '#' then .lineComment
  else if line.head? = some '[' ∧ line.getLast? = some ']' then .lineSection (scanSection sec line)
  else
    match (scanDouble line).or ((scanSingle line).or (scanPlain line)) with
    | some (key, value) => .lineValue (strlwc (strstrip key)) (emptyQuotes (strstrip value))
    | none =>
      match (scanComment line).or (scanBare line) with
      | some (key, _) => .lineValue (strlwc (strstrip key)) []
      | none => .lineError

def iniparserLine (sec inputLine : List Char) : LineStatus := classify sec (strstrip inputLine)

/-! ### Reading a file -/

/-- How `iniparser_load` can end without a dictionary. -/
inductive Stop
  | null | undefined
  deriving DecidableEq

/-- `dictionary_del` after a failed growth. -/
def Lost.freed : Lost → Stop
  | .hash => .null
  | .slots => .undefined

/-- The locals of `iniparser_load`: `line` is what a continued line has so far. -/
structure Loader where
  dict : Dictionary
  sec : List Char
  line : List Char
  errs : ℤ

/-- A line that the next one continues. -/
def continued (line : List Char) : Prop := line.getLast? = some '\\'

instance (line : List Char) : Decidable (continued line) := inferInstanceAs (Decidable (_ = _))

namespace Loader

/-- `dictionary_set` in the loop; a failure ends the load. -/
def store (grow : ℕ → Option Lost) (st : Loader) (sec key : List Char) (val : Option (List Char)) :
    Except Stop Loader :=
  match dictionarySet grow st.dict key val with
  | .ok dict => .ok ⟨dict, sec, [], 0⟩
  | .error lost => .error lost.freed

/-- The `switch` over the status of a complete line. -/
def switch (grow : ℕ → Option Lost) (st : Loader) (line : List Char) : Except Stop Loader :=
  match iniparserLine st.sec line with
  | .lineEmpty => .ok { st with line := [] }
  | .lineComment => .ok { st with line := [] }
  | .lineSection sec => st.store grow sec sec none
  | .lineValue key val =>
    if ASCIILINESZ < st.sec.length + 1 + key.length then .error .undefined
    else st.store grow st.sec (st.sec ++ ':' :: key) (some val)
  | .lineError => .ok { st with line := [], errs := st.errs + 1 }

/-- The `line` buffer after `fgets(line+last, ASCIILINESZ-last, in)`. -/
def buffer (st : Loader) (piece : List Char) : List Char :=
  cstr (st.line ++ piece.take (ASCIILINESZ - st.line.length - 1))

/-- What is done with a line once the blanks at its end are gone. -/
def receive (grow : ℕ → Option Lost) (st : Loader) (line : List Char) : Except Stop Loader :=
  if continued line then .ok { st with line := line.dropLast } else st.switch grow line

/-- One round of the loop. -/
def step (grow : ℕ → Option Lost) (st : Loader) (piece : List Char) : Except Stop Loader :=
  match (st.buffer piece).getLast? with
  | none => .error .undefined
  | some last =>
    if last ≠ '\n' then .error .null
    else st.receive grow ((st.buffer piece).rdropWhile isspace)

def run (grow : ℕ → Option Lost) : Loader → List (List Char) → Except Stop Dictionary
  | st, [] => if st.errs ≠ 0 then .error .null else .ok st.dict
  | st, piece :: pieces =>
    match st.step grow piece with
    | .error stop => .error stop
    | .ok st' => run grow st' pieces

def init : Loader := ⟨dictionaryNew 0, [], [], 0⟩

end Loader

/-- The outcomes of the calls that can fail: opening the file for reading, allocating the
dictionary, growing it at a size, opening the file for writing. -/
structure Outcomes where
  openRead : Bool
  dictNew : Bool
  grow : ℕ → Option Lost
  openWrite : Bool

def Outcomes.fine : Outcomes := ⟨true, true, fun _ => none, true⟩

def iniparserLoad (o : Outcomes) (content : List Char) : Except Stop Dictionary :=
  if ¬ o.openRead then .error .null
  else if ¬ o.dictNew then .error .null
  else Loader.init.run o.grow (readLines content)

end Code365.Ini
