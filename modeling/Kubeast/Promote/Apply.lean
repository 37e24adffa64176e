import Mathlib.Data.List.Sort
import Kubeast.Foundation.Table
import Kubeast.Foundation.YamlScalars
import Kubeast.Pipelines.Model

/-! The images of one environment written into another's values file (`internal/promote/promote.go`). -/
namespace Kubeast.Promote
open Text (CharTables)
open Yaml (Style quoted)
open Regex (seq opt plus one char text times)

section Nodes

/-- `yaml.Node`. A key stands as its value; of what is neither a scalar nor a map there is the value only. -/
inductive Node
  | scalar (style : Style) (value : String) (line column : ℕ)
  | mapping (flow : Bool) (content : List (String × Node))
  | other (value : String)

/-- The YAML library: a file without a document is `none`. -/
structure Codec where
  parse : List Char → Except String (Option Node)
  encode : ℕ → Node → Except String (List Char)

/-- `imageRe`. -/
def imageRe : Regex Char :=
  let word := plus (one fun c => !Pipelines.space c && c != '@' && c != ':')
  seq word (seq (opt (seq (char ':') word))
    (opt (seq (text "@sha256:".toList) (times 64 (one fun c => c.isDigit || ('a' ≤ c && c ≤ 'f'))))))

def isImage (s : String) : Bool := imageRe.accepts s.toList && s != "."

def lookup (key : String) : Option Node → Option Node
  | some (.mapping _ content) => (content.find? fun e => e.1 == key).map Prod.snd
  | _ => none

/-- `ensureMap`, of the content of a map. -/
def ensureMap (content : List (String × Node)) (key : String) : Option (List (String × Node)) :=
  match lookup key (some (.mapping false content)) with
  | none => some (content ++ [(key, .mapping false [])])
  | some (.mapping _ _) => some content
  | some _ => none

end Nodes

section Images
variable (tables : CharTables)

def notImage (name img : String) : String :=
  "container " ++ name ++ ": image " ++ Text.quote tables img ++ " is not an image reference"

/-- One container. -/
def addImage (out : Dict String String) (c : String × Node) : Except String (Dict String String) :=
  match lookup "image" (some c.2) with
  | none => .ok out
  | some (.scalar _ value _ _) =>
    if isImage value then .ok (out.set c.1 value) else .error (notImage tables c.1 value)
  | some (.mapping _ _) => .error (notImage tables c.1 "")
  | some (.other value) => .error (notImage tables c.1 value)

/-- `Images`. -/
def images (y : Codec) (file : List Char) : Except String (Dict String String) :=
  match y.parse file with
  | .error e => .error e
  | .ok doc =>
    match lookup "containers" doc with
    | none => .ok Table.empty
    | some (.mapping _ content) => content.foldlM (addImage tables) Table.empty
    | some _ => .error "containers is not a map"

end Images

section Lines

/-- The length of a text in bytes. -/
def bytes (s : List Char) : ℕ := (s.map Char.utf8Size).sum

/-- A text cut at a byte. -/
def cut : ℕ → List Char → List Char × List Char
  | 0, s => ([], s)
  | _, [] => ([], [])
  | n, c :: s => if c.utf8Size ≤ n then (c :: (cut (n - c.utf8Size) s).1, (cut (n - c.utf8Size) s).2) else ([], c :: s)

/-- `strings.SplitAfter` at the line breaks. -/
def splitAfter : List Char → List (List Char)
  | [] => [[]]
  | c :: s =>
    if c = '\n' then [c] :: splitAfter s
    else match splitAfter s with
    | [] => [[c]]
    | line :: lines => (c :: line) :: lines

/-- `byteColumn`. -/
def byteColumn : List Char → ℕ → ℕ
  | [], _ => 0
  | _, 0 => 0
  | c :: s, chars + 1 => c.utf8Size + byteColumn s chars

/-- The loop of `tokenEnd` in a double-quoted scalar, `i` bytes into the line. -/
def doubleEnd : ℕ → List Char → Option ℕ
  | _, [] => none
  | i, '\\' :: c :: s => doubleEnd (i + 1 + c.utf8Size) s
  | _, '\\' :: [] => none
  | i, '"' :: _ => some (i + 1)
  | i, c :: s => doubleEnd (i + c.utf8Size) s

/-- The loop of `tokenEnd` in a single-quoted scalar. -/
def singleEnd : ℕ → List Char → Option ℕ
  | _, [] => none
  | i, '\'' :: '\'' :: s => singleEnd (i + 2) s
  | i, '\'' :: _ => some (i + 1)
  | i, c :: s => singleEnd (i + c.utf8Size) s

/-- `tokenEnd`. -/
def tokenEnd (line : List Char) (col : ℕ) (style : Style) (value : String) : Except String ℕ :=
  let token := (cut col line).2
  let stop :=
    match style with
    | .double => token.head?.bind fun c => doubleEnd (col + c.utf8Size) token.tail
    | .single => token.head?.bind fun c => singleEnd (col + c.utf8Size) token.tail
    | _ => if value.toList.isPrefixOf token then some (col + bytes value.toList) else none
  match stop with
  | some stop => .ok stop
  | none => .error "image must be a one-line value"

end Lines

section Edits

/-- Lines and columns from 0, columns in bytes. -/
structure Edit where
  line : ℕ
  col : ℕ
  stop : ℕ
  value : List Char
deriving DecidableEq

def editLine (line : List Char) (e : Edit) : List Char := (cut e.col line).1 ++ e.value ++ (cut e.stop line).2

def applyEdit (lines : List (List Char)) (e : Edit) : List (List Char) :=
  lines.modify e.line fun line => editLine line e

/-- Right to left, so earlier columns on a line stay where they are. -/
def Edit.before (a b : Edit) : Prop := a.line < b.line ∨ (a.line = b.line ∧ b.col ≤ a.col)

instance : DecidableRel Edit.before := fun _ _ => inferInstanceAs (Decidable (_ ∨ (_ ∧ _)))

def applyEdits (lines : List (List Char)) (edits : List Edit) : List (List Char) :=
  (edits.insertionSort Edit.before).foldl applyEdit lines

/-- The edit that puts an image in the place of a scalar. -/
def editAt (lines : List (List Char)) (style : Style) (value : String) (line column : ℕ) (img : String) :
    Except String Edit :=
  match lines[line - 1]? with
  | none => .error "image must be a one-line value"
  | some l =>
    let col := byteColumn l (column - 1)
    (tokenEnd l col style value).map fun stop => ⟨line - 1, col, stop, quoted style img.toList⟩

/-- The loop of `inPlace` over the names: `none` where a container or its image is not there. -/
def editsOf (lines : List (List Char)) (images : Dict String String) (containers : Option Node) :
    List String → Except String (Option (List (String × Edit)))
  | [] => .ok (some [])
  | name :: names =>
    match lookup "image" (lookup name containers) with
    | none => .ok none
    | some (.scalar style value line column) =>
      if value = images.index name then editsOf lines images containers names
      else match editAt lines style value line column (images.index name) with
      | .error e => .error ("container " ++ name ++ ": " ++ e)
      | .ok e => (editsOf lines images containers names).map (Option.map ((name, e) :: ·))
    | some _ => .error ("container " ++ name ++ ": image is not a value")

/-- `inPlace`. -/
def inPlace (file : List Char) (top : Node) (names : List String) (images : Dict String String) :
    Except String (Option (List Char × List String)) :=
  match editsOf (splitAfter file) images (lookup "containers" (some top)) names with
  | .error e => .error e
  | .ok none => .ok none
  | .ok (some []) => .ok (some (file, []))
  | .ok (some edits) =>
    .ok (some ((applyEdits (splitAfter file) (edits.map Prod.snd)).flatten, edits.map Prod.fst))

end Edits

section Whole

/-- The first entry of a key, changed. -/
def update (key : String) (f : Node → Node) : List (String × Node) → List (String × Node)
  | [] => []
  | e :: content => if e.1 = key then (key, f e.2) :: content else e :: update key f content

def addKey (key : String) (value : Node) : Node → Node
  | .mapping flow content => .mapping flow (content ++ [(key, value)])
  | node => node

def setKey (key : String) (value : Node) : Node → Node
  | .mapping flow content => .mapping flow (update key (fun _ => value) content)
  | node => node

/-- One turn of the loop over the names of a file that is written back whole. -/
def setImage (images : Dict String String) (state : List (String × Node) × List String) (name : String) :
    Except String (List (String × Node) × List String) :=
  match ensureMap state.1 name with
  | none => .error ("container " ++ name ++ " is not a map")
  | some containers =>
    let img := images.index name
    match lookup "image" (lookup name (some (.mapping false containers))) with
    | none => .ok (update name (addKey "image" (.scalar .plain img 0 0)) containers, state.2 ++ [name])
    | some (.scalar style value line column) =>
      if value = img then .ok (containers, state.2)
      else .ok (update name (setKey "image" (.scalar style img line column)) containers, state.2 ++ [name])
    | some _ => .error ("container " ++ name ++ ": image is not a value")

/-- `indent`: of the first line that is indented and no comment. -/
def indent (file : List Char) : ℕ :=
  let found := (file.splitOn '\n').find? fun line =>
    let trimmed := line.dropWhile (· == ' ')
    trimmed.length < line.length && !trimmed.isEmpty && trimmed.head? != some '#'
  match found with
  | some line => (line.takeWhile (· == ' ')).length
  | none => 2

/-- The file written back whole, with what is missing. -/
def whole (y : Codec) (file : List Char) (flow : Bool) (content : List (String × Node)) (names : List String)
    (images : Dict String String) : Except String (List Char × List String) :=
  match lookup "containers" (some (.mapping flow content)) with
  | some (.mapping flow' containers) =>
    match names.foldlM (setImage images) (containers, []) with
    | .error e => .error e
    | .ok (_, []) => .ok (file, [])
    | .ok (containers, changed) =>
      let top := Node.mapping flow (update "containers" (fun _ => .mapping flow' containers) content)
      (y.encode (indent file) top).map fun out => (out, changed)
  | _ => .error "containers is not a map"

/-- `Apply`. -/
def apply (y : Codec) (tables : CharTables) (file : List Char) (images : Dict String String) :
    Except String (List Char × List String) :=
  if images.rows = [] then .error "no images to promote"
  else match images.rows.find? fun r => !isImage r.2 with
  | some r => .error (notImage tables r.1 r.2)
  | none =>
    match if Text.trimSpace (String.ofList file) = "" then .ok none else y.parse file with
    | .error e => .error e
    | .ok doc =>
      match doc.getD (.mapping false []) with
      | .mapping flow content =>
        match ensureMap content "containers" with
        | none => .error "containers is not a map"
        | some content =>
          let names := Text.sortStrings (images.rows.map Prod.fst)
          match inPlace file (.mapping flow content) names images with
          | .error e => .error e
          | .ok (some result) => .ok result
          | .ok none => whole y file flow content names images
      | _ => .error "the values file is not a map"

end Whole
end Kubeast.Promote
