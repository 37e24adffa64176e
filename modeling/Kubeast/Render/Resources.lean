import Kubeast.Render.Subst
import Kubeast.Render.Target

/-! What the resources of a workload provide (`internal/render/resources.go`). -/
namespace Kubeast.Render
open Sorted

section Renderer

/-- What the passes read: the input, and the namespace. -/
structure Renderer where
  lib : ScoreGo
  workload : Workload
  ext : Ext
  env : Env
  /-- The other workloads of the environment: name, service port name, port. -/
  peers : Dict String (Dict String ℤ)
  ns : String

def labelName : String := "app.kubernetes.io/name"
def labelManagedBy : String := "app.kubernetes.io/managed-by"
def labelService : String := "kubeast.io/service"
def labelEnv : String := "kubeast.io/environment"
def annOwner : String := "kubeast.io/owner"
def annFilesHash : String := "kubeast.io/files-hash"
def managedBy : String := "kubeast-deploy"

namespace Renderer

def name (r : Renderer) : String := r.workload.name

/-- The labels on every object and on the pods. -/
def labels (r : Renderer) : List (String × Value) :=
  [(labelName, .str r.name), (labelManagedBy, .str managedBy), (labelService, .str r.name),
    (labelEnv, .str r.env.name)]

def selector (r : Renderer) : Value := .map [(labelName, .str r.name)]

/-- The owner annotation names the object itself. -/
def owner (r : Renderer) (kind name : String) : String :=
  r.env.name ++ "/" ++ r.name ++ "/" ++ kind ++ "/" ++ name

def meta_ (r : Renderer) (kind name : String) (annotations : List (String × Value)) : Value :=
  .map [("name", .str name), ("namespace", .str r.ns), ("labels", .map r.labels),
    ("annotations", .map (annotations ++ [(annOwner, .str (r.owner kind name))]))]

def object (r : Renderer) (apiVersion kind name : String) (annotations fields : List (String × Value)) :
    Value :=
  .map (fields ++ [("apiVersion", .str apiVersion), ("kind", .str kind),
    ("metadata", r.meta_ kind name annotations)])

def add (r : Renderer) (apiVersion kind name : String) (annotations fields : List (String × Value)) :
    Built Unit :=
  Built.object (r.object apiVersion kind name annotations fields)

/-- The ports of the workload's service by name. -/
def ownPorts (r : Renderer) : Dict String ℤ :=
  ⟨r.workload.ports.rows.map fun p => (p.1, p.2.port), by
    rw [List.map_map]
    exact r.workload.ports.nodup⟩

end Renderer

end Renderer

section Params

abbrev Params := List (String × Value)

def param (params : Params) (key : String) : Option Value := (Value.map params).get key

/-- `onlyParams`: a param that is not read is refused. -/
def onlyParams (id type : String) (params : Params) (allowed : List String) : Except (List Message) Unit :=
  let errs := (Text.sortStrings (params.map Prod.fst)).flatMap fun k =>
    refuse (k ∉ allowed) "resource %q (%s): unknown param %q (known: %s)"
      [.str id, .str type, .str k, strs allowed]
  if errs = [] then .ok () else .error errs

/-- `stringParam`: nothing where the param is not given. -/
def stringParam (id type : String) (params : Params) (key : String) : Except (List Message) String :=
  match param params key with
  | none | some .null => .ok ""
  | some (.str s) => .ok s
  | some _ => .error [.mk "resource %q (%s): param %q must be a string" [.str id, .str type, .str key] []]

/-- Both, with the errors of both. -/
def both {α β : Type} : Except (List Message) α → Except (List Message) β → Except (List Message) (α × β)
  | .ok a, .ok b => .ok (a, b)
  | .error e, .ok _ => .error e
  | .ok _, .error e => .error e
  | .error e, .error e' => .error (e ++ e')

def failed {α : Type} (format : String) (args : List Value) : Except (List Message) α :=
  .error [.mk format args []]

/-- `portNumber`: the port, and its name where it is given by name. -/
def portNumber (v : Option Value) (byName : Dict String ℤ) : Option (ℤ × String) :=
  match v with
  | some (.num q) => if q.den = 1 ∧ -2 ^ 63 ≤ q.num ∧ q.num < 2 ^ 63 then some (q.num, "") else none
  | some (.str p) =>
    match Text.atoi p with
    | some n => some (n, "")
    | none => (lookup byName p).map fun n => (n, p)
  | _ => none

end Params

section Provisioners

structure SecretRes where
  key : String
  properties : List (String × String)

structure SaRes where
  class_ : String
  roleARN : String
  kubeAPI : Bool

/-- What the resources have provided so far. -/
structure Provided where
  outputs : Dict String Output
  /-- What each volume's `emptyDir` says. -/
  volumes : Dict String Value
  secrets : Dict String SecretRes
  sa : Option SaRes

/-- What one resource provides. -/
inductive Provision
  | values (members : List (String × Value))
  | volume (source : Value)
  | secret (res : SecretRes)
  | account (sa : SaRes) (members : List (String × Value))

namespace Provided

def none : Provided := ⟨Table.empty, Table.empty, Table.empty, Option.none⟩

def put (p : Provided) (id : String) : Provision → Provided
  | .values members => { p with outputs := p.outputs.set id (.values members) }
  | .volume source =>
    { p with outputs := p.outputs.set id .volume, volumes := p.volumes.set id source }
  | .secret res => { p with outputs := p.outputs.set id .secret, secrets := p.secrets.set id res }
  | .account sa members => { p with outputs := p.outputs.set id (.values members), sa := some sa }

end Provided

variable (r : Renderer) (id : String)

def scope (p : Provided) : Scope where
  lib := r.lib
  name := r.name
  metadata := r.workload.metadata
  outputs := p.outputs

def dns (params : Params) : Except (List Message) Provision := do
  onlyParams id "dns" params ["host"]
  let host ← stringParam id "dns" params "host"
  let host := orDefault host (r.env.hostFor r.name id)
  if host = "" then
    failed "resource %q (dns): no params.host and environment %q has no domain" [.str id, .str r.env.name]
  else if !hostname host || byteLength host > 253 then
    failed "resource %q (dns): %q is not a host name" [.str id, .str host]
  else pure (.values [("host", .str host)])

/-- The ports of a workload, where they are known. -/
def portsOf (workload : String) : Option (Dict String ℤ) :=
  if workload = r.name then some r.ownPorts else lookup r.peers workload

def servicePort (params : Params) : Except (List Message) Provision := do
  onlyParams id "service-port" params ["workload", "port"]
  let workload ← stringParam id "service-port" params "workload"
  if workload = "" ∨ (Value.map params).member "port" = none then
    failed "resource %q (service-port): params workload and port are required" [.str id]
  else match portNumber (param params "port") ((portsOf r workload).getD Table.empty) with
    | none =>
      if (portsOf r workload).isNone then
        failed "resource %q (service-port): workload %q is not known here; give params.port as a number"
          [.str id, .str workload]
      else
        failed "resource %q (service-port): workload %q has no port %v"
          [.str id, .str workload, (param params "port").getD .null]
    | some (n, name) =>
      if name = "" && (portsOf r workload).any fun ports => n ∉ ports.rows.map Prod.snd then
        failed "resource %q (service-port): workload %q has no port %d" [.str id, .str workload, .num n]
      else pure (.values [("hostname", .str workload), ("port", .num n)])

def volume (params : Params) : Except (List Message) Provision := do
  onlyParams id "volume" params ["sizeLimit", "medium"]
  let (size, medium) ← both (stringParam id "volume" params "sizeLimit")
    (stringParam id "volume" params "medium")
  if medium ≠ "" ∧ medium ≠ "Memory" then
    failed "resource %q (volume): medium %q is not Memory" [.str id, .str medium]
  else pure (.volume (.map ((if size = "" then [] else [("sizeLimit", .str size)]) ++
    if medium = "" then [] else [("medium", .str medium)])))

def secretProperties : Option Value → Except (List Message) (List (String × String))
  | none => pure []
  | some (.map members) => members.mapM fun m =>
    match m.2 with
    | .str s => pure (m.1, s)
    | _ => failed "resource %q (secret): params.properties.%s must be a string" [.str id, .str m.1]
  | some _ =>
    failed "resource %q (secret): params.properties must map output names to store properties" [.str id]

def secret (class_ : String) (params : Params) : Except (List Message) Provision := do
  if class_ ≠ "" ∧ class_ ≠ "default" ∧ class_ ≠ "external" then
    failed "resource %q (secret): class %q is not supported (external)" [.str id, .str class_]
  else
    onlyParams id "secret" params ["key", "properties"]
    let key ← stringParam id "secret" params "key"
    if key = "" then
      failed "resource %q (secret): params.key, the key in the secret store, is required" [.str id]
    else
      let properties ← secretProperties id (param params "properties")
      if !r.env.capabilities.externalSecrets then
        failed ("resource %q (secret): the target cluster of environment %q has no External Secrets; " ++
          "a workload cannot start without its secrets") [.str id, .str r.env.name]
      else if r.env.secretStore.isNone then
        failed "resource %q (secret): environment %q has no secretStore" [.str id, .str r.env.name]
      else pure (.secret ⟨key, properties⟩)

/-- `roleARN`. -/
def isRoleARN (s : String) : Bool :=
  (do
    let s ← strip "arn:aws".toList s.toList
    let s ← strip ":iam::".toList (s.dropWhile fun c => ('a' ≤ c && c ≤ 'z') || c == '-')
    let rest ← if (s.take 12).length = 12 ∧ (s.take 12).all Char.isDigit then some (s.drop 12) else none
    let role ← strip ":role/".toList rest
    if role ≠ [] ∧ '\n' ∉ role then some () else none).isSome

def kubeApiParam (params : Params) : Except (List Message) Bool :=
  match param params "kubeApi" with
  | none => .ok false
  | some (.bool b) => .ok b
  | some _ => failed "resource %q (service-account): params.kubeApi must be true or false" [.str id]

def roleArnParam (params : Params) : Except (List Message) String := do
  let arn ← stringParam id "service-account" params "roleArn"
  if isRoleARN arn then pure arn
  else failed "resource %q (service-account): params.roleArn %q is not an IAM role ARN" [.str id, .str arn]

/-- The class of a service account, the environment's where the resource gives none. -/
def accountClass (class_ : String) : String :=
  if class_ = "" ∨ class_ = "default" then r.env.serviceAccountClass else class_

def serviceAccountResource (p : Provided) (class_ : String) (params : Params) :
    Except (List Message) Provision :=
  if p.sa.isSome then
    failed "resource %q (service-account): a workload has one service account" [.str id]
  else match accountClass r class_ with
    | "none" => do
      onlyParams id "service-account" params ["kubeApi"]
      let kubeAPI ← kubeApiParam id params
      pure (.account ⟨"none", "", kubeAPI⟩ [("name", .str r.name)])
    | "aws-irsa" => do
      onlyParams id "service-account" params ["kubeApi", "roleArn"]
      let kubeAPI ← kubeApiParam id params
      let arn ← roleArnParam id params
      pure (.account ⟨"aws-irsa", arn, kubeAPI⟩ [("name", .str r.name)])
    | other =>
      failed "resource %q (service-account): class %q is not supported (none, aws-irsa)"
        [.str id, .str other]

/-- `routePath`: a slash, or elements that each follow a slash. -/
def routePath (s : String) : Bool :=
  s = "/" || match s.toList.splitOn '/' with
    | [] :: element :: elements => (element :: elements).all fun e =>
        e ≠ [] && e.all fun c => c ∉ ['\t', '\n', '\x0c', '\r', ' ']
    | _ => false

/-- The host, path and port of a route. -/
def routeParams (params : Params) : Except (List Message) (String × String × ℤ) := do
  onlyParams id "route" params ["host", "port", "path"]
  let (host, path) ← both (stringParam id "route" params "host") (stringParam id "route" params "path")
  if !hostname host || byteLength host > 253 then
    failed "resource %q (route): params.host %q is not a host name" [.str id, .str host]
  else if !routePath (orDefault path "/") then
    failed "resource %q (route): params.path %q must start with / and not end with one"
      [.str id, .str (orDefault path "/")]
  else match (portNumber (param params "port") r.ownPorts).filter fun found =>
      decide (found.1 ∈ r.ownPorts.rows.map Prod.snd) with
    | none =>
      failed "resource %q (route): params.port %v is not a port in service.ports"
        [.str id, (param params "port").getD .null]
    | some (port, _) => pure (host, orDefault path "/", port)

def parentRef (gw : ParentRef) : Value :=
  .map ([("name", .str gw.name)] ++
    (if gw.namespace_ = "" then [] else [("namespace", .str gw.namespace_)]) ++
    if gw.sectionName = "" then [] else [("sectionName", .str gw.sectionName)])

def httpRoute (gw : ParentRef) (host path : String) (port : ℤ) : Value :=
  r.object "gateway.networking.k8s.io/v1" "HTTPRoute" (r.name ++ "-" ++ id) []
    [("spec", .map [
      ("parentRefs", .list [parentRef gw]),
      ("hostnames", .list [.str host]),
      ("rules", .list [.map [
        ("matches", .list [.map [("path", .map [("type", .str "PathPrefix"), ("value", .str path)])]]),
        ("backendRefs", .list [.map [("name", .str r.name), ("port", .num port)]])]])])]

/-- The route's object, where the cluster has an API for it. -/
def attach (host path : String) (port : ℤ) : Built Unit :=
  if !r.env.capabilities.gatewayAPI then
    Built.note "resource %q (route): no HTTPRoute, the target cluster of environment %q has no Gateway API"
      [.str id, .str r.env.name]
  else match r.env.gateway with
    | none => Built.fail "resource %q (route): environment %q has no gateway to attach the route to"
        [.str id, .str r.env.name] []
    | some gw => Built.object (httpRoute r id gw host path port)

def route (params : Params) : Built (Option Provision) := do
  match ← Built.ofExcept (routeParams r id params) with
  | none => pure none
  | some (host, path, port) =>
    attach r id host path port
    pure (some (.values [("host", .str host), ("path", .str path)]))

end Provisioners

section Provision
variable (r : Renderer)

/-- The order resources are provisioned in: a route can use the host of a dns resource. -/
def provisionOrder (type : String) : Option ℕ :=
  ["dns", "service-port", "volume", "secret", "service-account", "route"].idxOf? type

def supportedTypes : String := "dns, route, secret, service-account, service-port, volume"

def provisionAs (p : Provided) (id class_ : String) (params : Params) : String → Built (Option Provision)
  | "dns" => Built.ofExcept (dns r id params)
  | "service-port" => Built.ofExcept (servicePort r id params)
  | "volume" => Built.ofExcept (volume id params)
  | "secret" => Built.ofExcept (secret r id class_ params)
  | "service-account" => Built.ofExcept (serviceAccountResource r id p class_ params)
  | "route" => route r id params
  | _ => pure none

/-- One turn of the loop. A secret that the params look up ends in them, and they are refused. -/
def provisionOne (p : Provided) (id : String) (res : Resource) : Built (Option Provision) :=
  let class_ := res.class_.getD ""
  if class_ ≠ "" ∧ class_ ≠ "default" ∧ res.type ≠ "secret" ∧ res.type ≠ "service-account" then do
    Built.fail "resource %q (%s): class %q is not supported" [.str id, .str res.type, .str class_] []
    pure none
  else match r.lib.substitute (scope r p).lookup res.params with
    | .error e => do
      Built.fail "resource %q (%s) params: %v" [.str id, .str res.type] [e]
      pure none
    | .ok params =>
      if hasSecretMembers (Value.members params) then do
        Built.fail "resource %q (%s) params: a secret output cannot go into params"
          [.str id, .str res.type] []
        pure none
      else provisionAs r p id class_ (Value.members params) res.type

def provisionAll : List (String × Resource) → Provided → Built Provided
  | [], p => pure p
  | (id, res) :: rest, p => do
    let found ← provisionOne r p id res
    provisionAll rest (found.elim p (p.put id))

/-- The resources in the order they are provisioned. -/
def provisionRows : List (String × Resource) :=
  sortBy (fun row => (provisionOrder row.2.type).getD 0) (sortedRows r.workload.resources)

def unsupported : Built (List Unit) :=
  Built.forEach (sortedRows r.workload.resources) fun row =>
    if (provisionOrder row.2.type).isSome then pure none else do
      Built.fail "resource %q: type %q is not supported (%s)"
        [.str row.1, .str row.2.type, .str supportedTypes] []
      pure (some ())

/-- Nothing is provided after an error. -/
def provision (before : List Message) : Built Provided := do
  let found ← unsupported r
  if before ≠ [] ∨ found ≠ [] then pure Provided.none
  else provisionAll r (provisionRows r) Provided.none

end Provision
end Kubeast.Render
