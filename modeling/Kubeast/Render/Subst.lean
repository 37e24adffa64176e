import Kubeast.Foundation.Text
import Mathlib.Data.List.Infix
import Kubeast.Foundation.Words
import Kubeast.Render.Score

/-! Texts that refer to other values, and the variables of a container
(`internal/render/subst.go`). -/
namespace Kubeast.Render
open Words

/-- A secret output: a resource and a key in it. -/
structure Ref where
  id : String
  key : String
deriving DecidableEq

section Markers

def secretMark : String := "\x00kubeast-secret\x00"

def secretMarker (id key : String) : String := secretMark ++ id ++ "\x00" ++ key ++ secretMark

/-- A part of a marker: the characters up to the next zero, at least one. -/
def part (s : List Char) : Option (List Char × List Char) :=
  let p := s.takeWhile (· ≠ '\x00')
  if p = [] then none else some (p, s.dropWhile (· ≠ '\x00'))

def strip (pre s : List Char) : Option (List Char) :=
  if pre.isPrefixOf s then some (s.drop pre.length) else none

/-- `secretRef` at the start of a text: the output and the length of its marker. -/
def matchRef (s : List Char) : Option (Ref × ℕ) := do
  let s ← strip secretMark.toList s
  let (id, s) ← part s
  let s ← strip ['\x00'] s
  let (key, s) ← part s
  let _ ← strip secretMark.toList s
  pure (⟨String.ofList id, String.ofList key⟩,
    (secretMarker (String.ofList id) (String.ofList key)).toList.length)

/-- What `secretRef` finds in a text: its markers, and the characters between them. -/
def splitRefs (s : String) : Word Char Ref := scan matchRef 0 s.toList

mutual

def hasSecret : Value → Bool
  | .str s => decide (secretMark.toList <:+: s.toList)
  | .map members => hasSecretMembers members
  | .list items => hasSecretItems items
  | _ => false

def hasSecretItems : List Value → Bool
  | [] => false
  | v :: vs => hasSecret v || hasSecretItems vs

def hasSecretMembers : List (String × Value) → Bool
  | [] => false
  | (_, v) :: ms => hasSecret v || hasSecretMembers ms

end

end Markers

section Lookups

/-- `secretKey`: what a key in the secret store is made of. -/
def isSecretKey (s : String) : Bool :=
  s ≠ "" && s.toList.all fun c => c == '-' || c == '.' || c == '_' || c.isAlphanum

/-- What a resource gives for `${resources.<id>.…}`. -/
inductive Output
  | values (members : List (String × Value))
  | volume
  | secret

def strs (l : List String) : Value := .str (", ".intercalate l)

def Output.get (id : String) : Output → List String → Except Message Value
  | .values members, [] => .ok (.map members)
  | .values members, [k] =>
    match (Value.map members).get k with
    | some v => .ok v
    | none => .error (.mk "resource %q has no output %q (outputs: %s)"
        [.str id, .str k, strs (Text.sortStrings (members.map Prod.fst))] [])
  | .values members, keys => .error (.mk "resource %q has no output %q (outputs: %s)"
      [.str id, .str (".".intercalate keys), strs (Text.sortStrings (members.map Prod.fst))] [])
  | .volume, _ =>
    .error (.mk "resource %q (volume) is a container volume source, not a value" [.str id] [])
  | .secret, keys =>
    match keys with
    | [k] => if isSecretKey k then .ok (.str (secretMarker id k)) else
        .error (.mk "a secret output is $\x7bresources.%s.<key>\x7d" [.str id] [])
    | _ => .error (.mk "a secret output is $\x7bresources.%s.<key>\x7d" [.str id] [])

/-- The renderer as the substitutions see it. -/
structure Scope where
  lib : ScoreGo
  /-- The workload's name and metadata. -/
  name : String
  metadata : Value
  outputs : Dict String Output

/-- `framework.BuildSubstitutionFunction(r.w.Metadata, r.outputs)`. -/
def Scope.lookup (r : Scope) (path : List String) : Except Message String :=
  r.lib.build r.metadata (fun id => (Render.lookup r.outputs id).map (·.get id)) path

theorem Scope.lookup_output {r : Scope} {id key : String} {keys : List String} {o : Output}
    (h : Render.lookup r.outputs id = some o) : r.lookup ("resources" :: id :: key :: keys) =
      (o.get id (key :: keys)).map (asText r.lib.write) := by
  apply r.lib.build_output
  rw [h]
  rfl

/-- The pieces of a text one after the other; every reference is looked up, also after an error. -/
def substPieces (r : Scope) : List Piece → Except (List Message) String
  | [] => .ok ""
  | .text s :: ps => (substPieces r ps).map (s ++ ·)
  | .ref path :: ps =>
    match r.lookup path, substPieces r ps with
    | .ok s, .ok t => .ok (s ++ t)
    | .error e, .ok _ => .error [e]
    | .ok _, .error es => .error es
    | .error e, .error es => .error (e :: es)

/-- The secret output that a reference marks as used. -/
def secretOutput (r : Scope) : List String → Option (String × String)
  | ["resources", id, key] =>
    match Render.lookup r.outputs id with
    | some .secret => if isSecretKey key then some (id, key) else none
    | _ => none
  | _ => none

def usedBy (r : Scope) (ps : List Piece) : List (String × String) :=
  ps.filterMap fun p => match p with
    | .text _ => none
    | .ref path => secretOutput r path

/-- `r.subst`. -/
def subst (r : Scope) (src : String) : Built (Except (List Message) String) :=
  ⟨substPieces r (r.lib.scan src), { Effects.none with used := usedBy r (r.lib.scan src) }⟩

end Lookups

section Variables

def secretName (name id : String) : String := name ++ "-" ++ id

def secretKeyRef (name : String) (ref : Ref) : Value :=
  .map [("secretKeyRef", .map [("name", .str (secretName name ref.id)), ("key", .str ref.key)])]

/-- A character of a generated name. -/
def cleanChar (c : Char) : Char :=
  if c.isLower then Char.ofNat (c.toNat - 'a'.toNat + 'A'.toNat) else if c.isUpper || c.isDigit then c else '_'

def clean (s : String) : List Char := s.toList.map cleanChar

def hiddenPrefix : String := "KUBEAST_SECRET_"

/-- The variable a secret embedded in another variable comes through. -/
def hiddenName (ref : Ref) : String :=
  String.ofList (hiddenPrefix.toList ++ clean ref.id ++ '_' :: clean ref.key)

/-- An entry of a container's `env`. -/
inductive EnvEntry
  | value (name value : String)
  | secret (name : String) (ref : Ref)

def EnvEntry.toValue (name : String) : EnvEntry → Value
  | .value k v => .map [("name", .str k), ("value", .str v)]
  | .secret k ref => .map [("name", .str k), ("valueFrom", secretKeyRef name ref)]

def dollarRef (ref : Ref) : List Char := '$' :: '(' :: (hiddenName ref).toList ++ [')']

def atoms (w : Word Char Ref) : List Ref := w.filterMap fun t => t.getRight?

/-- What a variable's substituted text becomes: the secrets that come through variables of their
own, and the entry. -/
def envEntry (name v : String) : List Ref × EnvEntry :=
  match splitRefs v with
  | [.inr ref] => ([], .secret name ref)
  | w =>
    if atoms w = [] then ([], .value name v)
    else (atoms w, .value name (String.ofList (fill dollarRef w)))

def envVar (r : Scope) (container name text : String) : Built (Option (List Ref × EnvEntry)) := do
  if Text.hasPrefix name hiddenPrefix then
    Built.fail "container %q variable %q: the KUBEAST_SECRET_ prefix is kept for secret references"
      [.str container, .str name] []
    pure none
  else
    match ← subst r text with
    | .error causes =>
      Built.fail "container %q variable %q: %v" [.str container, .str name] causes
      pure none
    | .ok v => pure (some (envEntry name v))

/-- The variables that embedded secrets come through; one name is given once. -/
def hiddenVars (refs : List Ref) : Dict String Ref :=
  refs.foldl (fun m ref => m.set (hiddenName ref) ref) Table.empty

def envVars (r : Scope) (container : String) (vars : Dict String String) : Built (List EnvEntry) := do
  let found ← Built.forEach (sortedRows vars) fun v => envVar r container v.1 v.2
  pure ((sortedRows (hiddenVars (found.flatMap Prod.fst))).map (fun h => .secret h.1 h.2) ++
    found.map Prod.snd)

end Variables
end Kubeast.Render
