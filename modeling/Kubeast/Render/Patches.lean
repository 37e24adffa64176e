import Kubeast.Foundation.Sha256
import Kubeast.Render.Resources

/-! What a Score file and the environment cannot say (`internal/render/escape.go`). Patches change
rendered objects, raw files add objects. -/
namespace Kubeast.Render

section Patches

structure File where
  name : String
  data : Bytes

structure Patch where
  /-- `target.kind` and `target.name`. -/
  kind : String
  name : String
  op : String
  path : String
  value : Option Value

/-- What the files hold, read by the YAML library. -/
structure Yaml where
  /-- The operations of a patches file; an empty file has none. -/
  patches : Bytes → Except Message (List Patch)
  /-- The documents of a raw file, and the error that ends them. -/
  documents : Bytes → List (Option (List (String × Value))) × Option Message

/-- What sync and the other objects rely on. -/
def protectedPaths : List (List String) := [
  ["apiVersion"], ["kind"],
  ["metadata", "name"], ["metadata", "namespace"], ["metadata", "generateName"],
  ["metadata", "annotations", annOwner],
  ["metadata", "labels", labelName], ["metadata", "labels", labelManagedBy],
  ["metadata", "labels", labelService], ["metadata", "labels", labelEnv],
  ["spec", "selector"],
  ["spec", "template", "metadata", "labels"]]

/-- The paths are the same as far as both go. -/
def meets : List String → List String → Bool
  | k :: p, l :: q => k = l && meets p q
  | _, _ => true

def protectedPath (parts : List String) : Option (List String) :=
  protectedPaths.find? fun p => meets p parts

def joined (parts : List String) : Value := .str (".".intercalate parts)

/-- What overriding the path would not report, `at_` being the part of it that has been followed. -/
def checkPath (del : Bool) (at_ : List String) : List String → Value → Option Message
  | [], _ => none
  | p :: rest, .map ms =>
    match (Value.map ms).get p with
    | some v => checkPath del (at_ ++ [p]) rest v
    | none =>
      if del then some (.mk "%s does not exist" [joined (at_ ++ [p])] [])
      else if rest.any fun k => (Text.atoi k).isSome then
        some (.mk "%s does not exist; set the list itself" [joined (at_ ++ [p])] [])
      else none
  | p :: rest, .list items =>
    match Text.atoi p with
    | none => some (.mk "%s is a list; %q is not an index" [joined at_, .str p] [])
    | some n =>
      if rest = [] ∧ del = false ∧ n = -1 then none
      else if h : 0 ≤ n ∧ n < items.length then
        checkPath del (at_ ++ [p]) rest (items.get ⟨n.toNat, by omega⟩)
      else some (.mk "%s has %d items; index %d is out of range"
        [joined at_, .num items.length, .num n] [])
  | _ :: _, _ => some (.mk "%s is a value, not a map or a list" [joined at_] [])

variable (lib : ScoreGo)

def kindOf (o : Value) : String := Value.text (o.get "kind")

def objName (o : Value) : String := Value.text (o.find ["metadata", "name"])

def Patch.selects (p : Patch) (o : Value) : Bool :=
  o.get "kind" = some (.str p.kind) && (p.name = "" || objName o = p.name)

/-- A patch on one of its objects: the object after it, and what failed. -/
def patchObject (where_ : String) (p : Patch) (parts : List String) (o : Value) : Value × List Message :=
  let refused (e : Message) : Value × List Message :=
    (o, [.mk "%s on %s %s: %v" [.str where_, .str p.kind, .str (objName o)] [e]])
  match checkPath (p.op = "delete") [] parts o with
  | some e => refused e
  | none =>
    match lib.override o parts (p.op = "delete") (p.value.getD .null) with
    | .ok out => (out, [])
    | .error e => refused e

/-- What is wrong with an operation before it is aimed at objects. -/
def Patch.problem (p : Patch) (where_ : String) : Option Message :=
  if p.op ≠ "set" ∧ p.op ≠ "delete" then
    some (.mk "%s: op %q is not set or delete" [.str where_, .str p.op] [])
  else if p.kind = "" then some (.mk "%s: target.kind is required" [.str where_] [])
  else if p.path = "" then some (.mk "%s: path is required" [.str where_] [])
  else if p.op = "set" ∧ (p.value.getD .null) = .null then
    some (.mk "%s: set needs a value (delete removes)" [.str where_] [])
  else (protectedPath (lib.dotPath p.path)).map fun prot =>
    .mk "%s: %s is the platform's and cannot be patched" [.str where_, joined prot] []

def applyPatch (where_ : String) (p : Patch) (objects : List Value) : List Value × List Message :=
  match p.problem lib where_ with
  | some e => (objects, [e])
  | none =>
    let done := objects.map fun o =>
      if p.selects o then patchObject lib where_ p (lib.dotPath p.path) o else (o, [])
    let missing : List Message :=
      if objects.any p.selects then []
      else [.mk "%s: no rendered %s" [.str where_,
        .str (if p.name = "" then p.kind else p.kind ++ " " ++ p.name)] []]
    (done.map Prod.fst, done.flatMap Prod.snd ++ missing)

/-- The operations of a file in order, each on the objects as the ones before it left them. -/
def applyOps (file : String) : ℕ → List Patch → List Value → List Value × List Message
  | _, [], objects => (objects, [])
  | i, p :: ps, objects =>
    let (objects, errs) := applyPatch lib ("patches " ++ file ++ " #" ++ toString (i + 1)) p objects
    let (objects, errs') := applyOps file (i + 1) ps objects
    (objects, errs ++ errs')

def applyPatches (yaml : Yaml) : List File → List Value → List Value × List Message
  | [], objects => (objects, [])
  | f :: files, objects =>
    let (objects, errs) := match yaml.patches f.data with
      | .ok ops => applyOps lib f.name 0 ops objects
      | .error e => (objects, [.mk "patches %s: %v" [.str f.name] [e]])
    let (objects, errs') := applyPatches yaml files objects
    (objects, errs ++ errs')

end Patches

section Raw
variable (r : Renderer)

/-- Kinds without a namespace: they wait for a platform admin. -/
def clusterScoped : List String := [
  "Namespace", "Node", "PersistentVolume", "ClusterRole", "ClusterRoleBinding",
  "CustomResourceDefinition", "APIService", "StorageClass", "CSIDriver", "VolumeAttachment",
  "PriorityClass", "RuntimeClass", "IngressClass", "GatewayClass", "ValidatingWebhookConfiguration",
  "MutatingWebhookConfiguration", "ValidatingAdmissionPolicy", "ValidatingAdmissionPolicyBinding",
  "DeviceClass", "ClusterSecretStore", "ClusterIssuer"]

/-- The raw objects accepted so far, and the kinds and names taken. -/
structure Accepted where
  seen : List String
  objects : List Value
  clusterScoped : List Value
  notes : List Message
  errs : List Message

namespace Accepted

def fail (a : Accepted) (format : String) (args : List Value) : Accepted :=
  { a with errs := a.errs ++ [.mk format args []] }

end Accepted

def seenKey (kind name : String) : String := kind ++ "/" ++ name

def hasSuffix (s suffix : String) : Bool := suffix.toList.isSuffixOf s.toList

/-- A label of the platform; the object's own must not say otherwise. -/
def setLabel (labels : List (String × Value)) (l : String × Value) :
    Except (String × Value × Value) (List (String × Value)) :=
  match (Value.map labels).get l.1 with
  | some old => if old ≠ l.2 then .error (l.1, l.2, old) else .ok (Value.put labels l.1 l.2)
  | none => .ok (Value.put labels l.1 l.2)

def platformLabels (own : List (String × Value)) : Except (String × Value × Value) (List (String × Value)) :=
  r.labels.foldlM setLabel own

/-- A document that has passed the checks, with the metadata of the platform. -/
def placeRaw (where_ kind name : String) (doc md : List (String × Value)) (a : Accepted) : Accepted :=
  match platformLabels r (Value.members ((Value.map md).get "labels")) with
  | .error (k, v, old) => a.fail "%s: label %s is the platform's (%v), not %v" [.str where_, .str k, v, old]
  | .ok labels =>
    let ann := Value.members ((Value.map md).get "annotations")
    if ((Value.map ann).get annOwner).isSome then
      a.fail "%s: annotation %s is the platform's" [.str where_, .str annOwner]
    else
      let md := Value.put (Value.put md "labels" (.map labels)) "annotations"
        (.map (Value.put ann annOwner (.str (r.owner kind name))))
      if kind ∈ clusterScoped then
        { a with
          clusterScoped :=
            a.clusterScoped ++ [.map (Value.put doc "metadata" (.map (Value.delete md "namespace")))]
          notes := a.notes ++ [.mk "%s: %s %s is cluster-scoped; it waits for a platform admin's approval"
            [.str where_, .str kind, .str name] []] }
      else
        { a with
          objects :=
            a.objects ++ [.map (Value.put doc "metadata" (.map (Value.put md "namespace" (.str r.ns))))] }

def addRawObject (where_ : String) (doc : List (String × Value)) (a : Accepted) : Accepted :=
  let apiVersion := Value.text ((Value.map doc).get "apiVersion")
  let kind := Value.text ((Value.map doc).get "kind")
  let md := Value.members ((Value.map doc).get "metadata")
  let name := Value.text ((Value.map md).get "name")
  let ns := Value.text ((Value.map md).get "namespace")
  if apiVersion = "" ∨ kind = "" ∨ name = "" then
    a.fail "%s: needs apiVersion, kind and metadata.name" [.str where_]
  else if kind = "Secret" then
    a.fail ("%s: a Secret's values would sit in the source; use a secret resource (External " ++
      "Secrets)") [.str where_]
  else if hasSuffix kind "List" then
    a.fail "%s: write the items as separate documents, not a %s" [.str where_, .str kind]
  else if ns ≠ "" ∧ ns ≠ r.ns then
    a.fail "%s: namespace %q; the workload's objects stay in %q" [.str where_, .str ns, .str r.ns]
  else if seenKey kind name ∈ a.seen then
    a.fail "%s: %s %s is already rendered or listed; change a rendered object with patches"
      [.str where_, .str kind, .str name]
  else placeRaw r where_ kind name doc md { a with seen := seenKey kind name :: a.seen }

/-- The documents of a file in order; an empty one is passed over. -/
def addDocuments (file : String) : ℕ → List (Option (List (String × Value))) → Accepted → Accepted
  | _, [], a => a
  | n, none :: docs, a => addDocuments file (n + 1) docs a
  | n, some doc :: docs, a => addDocuments file (n + 1) docs
      (addRawObject r ("raw " ++ file ++ " document " ++ toString (n + 1)) doc a)

def addFile (yaml : Yaml) (f : File) (a : Accepted) : Accepted :=
  let (docs, failed) := yaml.documents f.data
  let a := addDocuments r f.name 0 docs a
  match failed with
  | none => a
  | some e => { a with errs := a.errs ++ [.mk "%s: %v"
      [.str ("raw " ++ f.name ++ " document " ++ toString (docs.length + 1))] [e]] }

def addRaw (yaml : Yaml) (files : List File) (rendered : List Value) : Accepted :=
  files.foldl (fun a f => addFile r yaml f a)
    ⟨rendered.map fun o => seenKey (kindOf o) (objName o), [], [], [], []⟩

end Raw
end Kubeast.Render
