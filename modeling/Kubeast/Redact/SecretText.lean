import Kubeast.Foundation.Lines
import Kubeast.Redact.JsonText

/-! How `Text` finds the Secrets in a text and strips their values: a scan by indentation and a scan
by JSON strings and braces. Both read only the characters of the symbols they copy. -/
namespace Kubeast.Redact
open Symbols Json

section Kinds

def isBlank (c : Char) : Bool := c = ' ' || c = '\t'

def skipQuote : List Char → List Char
  | c :: s => if c = '"' ∨ c = '\'' then s else c :: s
  | [] => []

/-- `(?:-[ \t]+)?` -/
def skipItem : List Char → List Char
  | '-' :: c :: s => if isBlank c then s.dropWhile isBlank else '-' :: c :: s
  | s => s

/-- What follows the word at the start of the text. -/
def after (word s : List Char) : Option (List Char) :=
  if word.isPrefixOf s then some (s.drop word.length) else none

/-- `^[ \t]*(?:-[ \t]+)?["']?kind["']?[ \t]*:[ \t]*["']?Secret["']?[ \t]*\r?$` on one line. -/
def isKindLine (l : List Char) : Bool :=
  match after "kind".toList (skipQuote (skipItem (l.dropWhile isBlank))) with
  | none => false
  | some s => match after [':'] ((skipQuote s).dropWhile isBlank) with
    | none => false
    | some s => match after "Secret".toList (skipQuote (s.dropWhile isBlank)) with
      | none => false
      | some s => (skipQuote s).dropWhile isBlank = [] || (skipQuote s).dropWhile isBlank = ['\r']

def namesSecretYAML (s : List Char) : Bool :=
  contains s "kind: Secret".toList || (splitLines s).any isKindLine

/-- `\s` of the expressions. -/
def isSpaceClass (c : Char) : Bool := [' ', '\t', '\n', '\x0c', '\r'].contains c

def isWordChar (c : Char) : Bool :=
  isDigitChar c || ('a' ≤ c && c ≤ 'z') || ('A' ≤ c && c ≤ 'Z') || c = '_'

/-- `"kind"\s*:\s*"Secret"` at the start of the text. -/
def matchJSONKind (s : List Char) : Bool :=
  match after "\"kind\"".toList s with
  | none => false
  | some s => match after [':'] (s.dropWhile isSpaceClass) with
    | none => false
    | some s => "\"Secret\"".toList.isPrefixOf (s.dropWhile isSpaceClass)

/-- `Kind=Secret\b` at the start of the text. -/
def matchWordKind (s : List Char) : Bool :=
  match after "Kind=Secret".toList s with
  | none => false
  | some s => !s.head?.any isWordChar

/-- The argument says whether a word character comes before the text. -/
def jsonKindFrom : Bool → List Char → Bool
  | _, [] => false
  | word, c :: s =>
      matchJSONKind (c :: s) || (!word && matchWordKind (c :: s)) || jsonKindFrom (isWordChar c) s

def secretJSONKind (s : List Char) : Bool := jsonKindFrom false s

end Kinds

variable {α : Type*} [Symbol α]

def write (s : List Char) : List α := s.map lit

section Indentation

/-- The four indents the scan keeps while it is inside something: `data:` or `stringData:`, a value
in it, `annotations:`, and the last-applied annotation in that. -/
structure Registers where
  block : Option ℕ
  value : Option ℕ
  anno : Option ℕ
  last : Option ℕ
deriving DecidableEq

def Registers.start : Registers := ⟨none, none, none, none⟩

/-- A line that is not deeper ends what the scan is inside of. -/
def Registers.closeBlock (r : Registers) : Registers :=
  if r.block.isSome then { r with block := none, value := none } else r

def Registers.closeAnno (r : Registers) : Registers :=
  if r.anno.isSome then { r with anno := none, last := none } else r

def inside (register : Option ℕ) (indent : ℕ) : Bool := register.any (· < indent)

def indentOf (line : List α) : ℕ := (line.takeWhile fun a => char a = ' ').length

/-- A blank line or a comment. -/
def isSkipped (line : List α) : Bool :=
  (trimSpace line).isEmpty || hasPrefix (trimSpace line) ['#']

/-- The line from its key on, and the column of the key; the keys of an item sit two columns in. -/
def keyOf (line : List α) : List α × ℕ :=
  if hasPrefix (trimSpace line) ['-', ' '] then
    (trimLeft (· = ' ') ((trimSpace line).drop 2), indentOf line + 2)
  else (trimSpace line, indentOf line)

def isQuoteOrSpace (c : Char) : Bool := c = '"' || c = '\'' || c = ' '

def onItsOwn (rest : List α) : Bool := (trimSpace rest).isEmpty || hasPrefix (trimSpace rest) ['#']

def isSecretKey (name : List Char) : Bool := name = "data".toList || name = "stringData".toList

def emptyValues : List (List Char) := [['{', '}'], "null".toList, ['~']]

/-- The line with a placeholder after its key. -/
def maskKeyLine (line key field : List α) : List α :=
  line.take (indexOf (key.map char) line) ++ (field ++ write (": ".toList ++ secretPlaceholder))

/-- A line outside of everything. -/
def scanKey (r : Registers) (line : List α) : Registers × List α :=
  let (key, keyIndent) := keyOf line
  match cut ':' key with
  | none => (r, line)
  | some (field, rest) =>
    let name := (trim isQuoteOrSpace field).map char
    if isSecretKey name then
      if onItsOwn rest then ({ r with block := some keyIndent, value := none }, line)
      else if emptyValues.contains ((trimSpace rest).map char) then (r, line)
      -- JSON's double-quoted key with its value is left to the other scan
      else if !hasPrefix field ['"'] then
        ({ r with block := some keyIndent, value := none }, maskKeyLine line key field)
      else (r, line)
    else if name = "annotations".toList ∧ onItsOwn rest then
      ({ r with anno := some keyIndent, last := none }, line)
    else if name = "annotations".toList ∧ contains (trimSpace rest) lastAppliedName ∧
        hasPrefix field ['"'] = false then (r, maskKeyLine line key field)
    else (r, line)

def maskEntry (line : List α) : List α :=
  List.replicate (indentOf line) (lit ' ') ++
    (((trimSpace line).takeWhile fun a => char a ≠ ':') ++ write (": ".toList ++ secretPlaceholder))

def maskLastApplied (line : List α) : List α :=
  List.replicate (indentOf line) (lit ' ') ++ write (lastAppliedName ++ ": ".toList ++ secretPlaceholder)

/-- A line inside `annotations:`. -/
def scanAnno (r : Registers) (line : List α) : Registers × List α :=
  if hasPrefix (trimLeft (fun c => c = '"' || c = '\'') (trimSpace line)) lastAppliedName then
    ({ r with last := some (indentOf line) }, maskLastApplied line)
  else if inside r.last (indentOf line) then (r, [])
  else ({ r with last := none }, line)

/-- A line inside `data:` or `stringData:`. -/
def scanEntry (r : Registers) (line : List α) : Registers × List α :=
  let value := r.value.getD (indentOf line)
  ({ r with value := some value },
    if indentOf line = value ∧ contains (trimSpace line) [':'] then maskEntry line else [])

def scanLine (r : Registers) (line : List α) : Registers × List α :=
  if isSkipped line then (r, line)
  else if inside r.block (indentOf line) then scanEntry r line
  else if inside r.anno (indentOf line) then scanAnno r.closeBlock line
  else scanKey r.closeBlock.closeAnno line

def scanLines : Registers → List (List α) → List (List α)
  | _, [] => []
  | r, l :: ls => (scanLine r l).2 :: scanLines (scanLine r l).1 ls

def stripSecretYAML (doc : List α) : List α := joinLines (scanLines .start (splitLines doc))

end Indentation

section Braces

def jsonFieldNames : List (List Char) :=
  ["data".toList, "stringData".toList, "data_values".toList, lastAppliedName]

/-- The length of `"name"\s*:\s*` at the start of the text. -/
def matchName (name s : List Char) : Option ℕ :=
  match after ('"' :: (name ++ ['"'])) s with
  | none => none
  | some t =>
    match after [':'] (t.dropWhile isSpaceClass) with
    | none => none
    | some u => some (s.length - (u.dropWhile isSpaceClass).length)

/-- The name matched by `jsonSecretField` at the start of the text, and the length of the match. -/
def matchField (s : List Char) : Option (List Char × ℕ) :=
  jsonFieldNames.findSome? fun name => (matchName name s).map fun n => (name, n)

/-- The first match: the text up to its end, the name, and the text after it. -/
def findField : List α → Option (List α × List Char × List α)
  | [] => none
  | a :: s => match matchField ((a :: s).map char) with
    | some (name, n) => some ((a :: s).take n, name, (a :: s).drop n)
    | none => (findField s).map fun p => (a :: p.1, p.2)

/-- What has nothing to hide. -/
def keptValues : List (List Char) := [['{', '}'], "null".toList, ['"', '"'], ['[', ']']]

def quotedPlaceholder : List Char := '"' :: (secretPlaceholder ++ ['"'])

/-- What is written for the value that the text starts with, and the text after it. -/
def maskJSONValue (s : List α) : List α × Option (List α) :=
  match valueLen s with
  | none => (write quotedPlaceholder, none)
  | some n =>
    if keptValues.contains ((s.take n).map char) || hasPrefix (s.take n) "\"<REDACTED".toList then
      (s.take n, some (s.drop n))
    else (write quotedPlaceholder, some (s.drop n))

/-- What is written for a string of `n` symbols in an object and, if a colon makes it a key, for its
value. With no key, a value out of place is still a value. -/
def maskJSONMember (s : List α) (n : ℕ) : List α × Option (List α) :=
  match (s.drop n).dropWhile fun a => isSpaceChar (char a) with
  | [] => maskJSONValue s
  | colon :: t =>
    if char colon = ':' then
      let gap := (s.drop n).takeWhile fun a => isSpaceChar (char a)
      let gap' := t.takeWhile fun a => isSpaceChar (char a)
      let masked := maskJSONValue (t.dropWhile fun a => isSpaceChar (char a))
      (s.take n ++ (gap ++ colon :: (gap' ++ masked.1)), masked.2)
    else maskJSONValue s

/-- What is written for the rest of an object, and the text after it. -/
def maskJSONMembers : ℕ → List α → List α × Option (List α)
  | 0, _ => ([], none)
  | _ + 1, [] => ([], none)
  | fuel + 1, a :: s =>
    if char a = '}' then ([a], some s)
    else if char a = '"' then
      match valueLen (a :: s) with
      | none => ([], none)
      | some n =>
        match maskJSONMember (a :: s) n with
        | (written, none) => (written, none)
        | (written, some t) => (written ++ (maskJSONMembers fuel t).1, (maskJSONMembers fuel t).2)
    else
      let kept := [',', '+', '-'].contains (char a) || isSpaceChar (char a)
      ((if kept then [a] else []) ++ (maskJSONMembers fuel s).1, (maskJSONMembers fuel s).2)

def maskJSONObject (s : List α) : List α × Option (List α) :=
  match s with
  | [] => ([], none)
  | a :: s =>
    let masked := maskJSONMembers (s.length + 1) s
    (a :: masked.1, masked.2)

def maskField (name : List Char) (s : List α) : List α × Option (List α) :=
  if name ≠ lastAppliedName ∧ hasPrefix s ['{'] then maskJSONObject s else maskJSONValue s

def stripSecretJSONFrom : ℕ → List α → List α
  | 0, s => s
  | fuel + 1, s => match findField s with
    | none => s
    | some (copied, name, rest) =>
      copied ++ ((maskField name rest).1 ++ match (maskField name rest).2 with
        | none => []
        | some t => stripSecretJSONFrom fuel t)

/-- Every round of the loop passes a name, so the length of the text bounds the rounds. -/
def stripSecretJSON (doc : List α) : List α := stripSecretJSONFrom doc.length doc

end Braces

section Documents

def docSeparator : List Char := "\n---".toList

/-- `strings.Split` at the separator; the number counts what is left of a separator. -/
def splitDocs : ℕ → List α → List (List α)
  | _, [] => [[]]
  | n + 1, _ :: s => splitDocs n s
  | 0, a :: s =>
      if hasPrefix (a :: s) docSeparator then [] :: splitDocs 3 s
      else (splitDocs 0 s).modifyHead (a :: ·)

def joinDocs (docs : List (List α)) : List α := (write docSeparator).intercalate docs

def stripSecretDocument (doc : List α) : List α :=
  let doc := if namesSecretYAML (doc.map char) then stripSecretYAML doc else doc
  if secretJSONKind (doc.map char) then stripSecretJSON doc else doc

def stripSecretDocuments (s : List α) : List α := joinDocs ((splitDocs 0 s).map stripSecretDocument)

def namesSecret (s : List Char) : Bool := namesSecretYAML s || secretJSONKind s

/-- `Text`, with the rules on credentials and personal data as a parameter. -/
def Text (credentialRules : Options → List Char → List Char) (o : Options) (s : List Char) :
    List Char :=
  if s = [] then s
  else
    let s := if namesSecret s then stripSecretDocuments s else s
    if !o.enabled then s else credentialRules o s

end Documents

end Kubeast.Redact
