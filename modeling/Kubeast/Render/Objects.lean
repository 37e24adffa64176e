import Kubeast.Foundation.Sha256
import Kubeast.Render.Resources

/-! The objects of a workload (`internal/render/workload.go`, `scale.go`). -/
namespace Kubeast.Render
open Sorted

section Fields

/-- A member that is there only where it has a value. -/
def field (key : String) (v : Option Value) : List (String × Value) := v.toList.map fun v => (key, v)

/-- A list that is left out when it is empty. -/
def listField (key : String) (items : List Value) : List (String × Value) :=
  if items = [] then [] else [(key, .list items)]

def strList (l : List String) : Value := .list (l.map .str)

end Fields

section Files
variable (r : Renderer) (p : Provided)

inductive FileContent
  | data (s : String)
  | binary (s : String)

/-- A container's file: its key in the ConfigMap, and where it is mounted. -/
structure FileEntry where
  container : String
  target : String
  key : String
  content : FileContent
  mode : Option ℕ

def keyPart (s : String) : String :=
  String.ofList (s.toList.map fun c => if c == '-' || c == '.' || c == '_' || c.isAlphanum then c else '_')

/-- `strconv.ParseUint` of an octal file mode. -/
def octalMode (s : String) : Option ℕ :=
  if s ≠ "" ∧ s.toList.all fun c => '0' ≤ c && c ≤ '7' then
    let m := s.toList.foldl (fun m c => 8 * m + (c.toNat - '0'.toNat)) 0
    if m ≤ 0o777 then some m else none
  else none

def fileContent (cname target : String) (f : ContainerFile) : Built (Option FileContent) :=
  match f.content, f.binaryContent with
  | some content, _ =>
    if f.noExpand = some true then pure (some (.data content)) else do
      match ← subst (scope r p) content with
      | .error causes =>
        Built.fail "container %q file %q: %v" [.str cname, .str target] causes
        pure none
      | .ok content =>
        if hasSecret (.str content) then
          Built.fail ("container %q file %q: a secret output cannot go into a file in this version; " ++
            "pass it as a variable") [.str cname, .str target] []
          pure none
        else pure (some (.data content))
  | none, some content => pure (some (.binary content))
  | none, none => do
    Built.fail "container %q file %q: no content" [.str cname, .str target] []
    pure none

def fileEntry (cname target : String) (i : ℕ) (f : ContainerFile) : Built (Option FileEntry) := do
  match ← fileContent r p cname target f with
  | none => pure none
  | some content =>
    let key := cname ++ "-" ++ toString i ++ "-" ++ keyPart (Text.base target)
    match f.mode.map octalMode with
    | some none =>
      Built.fail "container %q file %q: mode %q is not an octal file mode"
        [.str cname, .str target, .str (f.mode.getD "")] []
      pure none
    | mode => pure (some ⟨cname, target, key, content, mode.join⟩)

/-- The files of a container, and those of all containers. -/
def filesOf (cname : String) (c : Container) : List (String × String × ℕ × ContainerFile) :=
  (sortedRows c.files).zipIdx.map fun f => (cname, f.1.1, f.2, f.1.2)

def fileEntries : Built (List FileEntry) :=
  Built.forEach ((sortedRows r.workload.containers).flatMap fun c => filesOf c.1 c.2)
    fun (cname, target, i, f) => fileEntry r p cname target i f

structure Mount where
  name : String
  mountPath : String
  subPath : Option String
  readOnly : Bool

def Mount.toValue (m : Mount) : Value :=
  .map ([("name", .str m.name), ("mountPath", .str m.mountPath)] ++
    field "subPath" (m.subPath.map .str) ++ if m.readOnly then [("readOnly", .bool true)] else [])

/-- A volume of the pod: its name, and what it is. -/
structure PodVolume where
  name : String
  source : String × Value

def PodVolume.toValue (v : PodVolume) : Value := .map [("name", .str v.name), v.source]

/-- `filesOut`: the ConfigMap the containers' files go in. -/
structure FilesOut where
  volume : Option PodVolume
  mounts : List (String × Mount)
  hash : String

def FileEntry.mount (f : FileEntry) : Mount := ⟨"files", f.target, some f.key, true⟩

def FileEntry.item (f : FileEntry) : Value :=
  .map ([("key", .str f.key), ("path", .str f.key)] ++ field "mode" (f.mode.map fun m => .num m))

def dataOf (entries : List FileEntry) : Dict String String :=
  entries.foldl (fun m f => match f.content with
    | .data s => m.set f.key s
    | .binary _ => m) Table.empty

def binaryOf (entries : List FileEntry) : Dict String String :=
  entries.foldl (fun m f => match f.content with
    | .data _ => m
    | .binary s => m.set f.key s) Table.empty

def stringMap (m : Dict String String) : Value := .map ((sortedRows m).map fun e => (e.1, .str e.2))

def utf8 (s : String) : Bytes := s.toByteArray.data.toList

def hashData (maps : List (Dict String String)) : String :=
  String.ofList ((Hex.encode (Sha256.sha256 (maps.flatMap fun m =>
    ((sortedRows m).flatMap fun e => utf8 e.1 ++ [0] ++ utf8 e.2 ++ [0]) ++ [1]))).toList.take 16)

def mapField (key : String) (m : Dict String String) : List (String × Value) :=
  if m.rows = [] then [] else [(key, stringMap m)]

def filesName : String := r.name ++ "-files"

def files : Built FilesOut := do
  let entries ← fileEntries r p
  let mounts := entries.map fun f => (f.container, f.mount)
  if entries = [] then pure ⟨none, [], ""⟩
  else
    let data := dataOf entries
    let binary := binaryOf entries
    r.add "v1" "ConfigMap" (filesName r) [] (mapField "data" data ++ mapField "binaryData" binary)
    pure ⟨some ⟨"files", ("configMap", .map [("name", .str (filesName r)),
      ("items", .list (entries.map FileEntry.item))])⟩, mounts, hashData [data, binary]⟩

end Files

section Containers
variable (r : Renderer) (p : Provided)

/-- The target port of the first service port by name. -/
def firstServicePort : ℤ :=
  match sortedRows r.workload.ports with
  | [] => 0
  | (_, port) :: _ => port.targetPort.getD port.port

def or_ (v : Option String) (default : String) : String :=
  match v with
  | some s => if s = "" then default else s
  | none => default

/-- A default memory limit below the container's own request is raised to it. -/
def memoryLimit (cname : String) (request limit : Option String) : Built String :=
  let default := or_ limit r.env.limits.memory
  match limit, request with
  | none, some request =>
    match r.lib.memory request, r.lib.memory default with
    | .ok req, .ok lim => pure (if lim < req then request else default)
    | .error e, _ => do
      Built.fail "container %q resources: %v" [.str cname] [e]
      pure default
    | _, .error e => do
      Built.fail "container %q resources: %v" [.str cname] [e]
      pure default
  | _, _ => pure default

/-- What the container leaves out comes from the environment. -/
def resources (cname : String) (cr : Option ContainerResources) : Built Value := do
  let req := cr.bind ContainerResources.requests
  let lim := cr.bind ContainerResources.limits
  let memory ← memoryLimit r cname (req.bind ResourcesLimits.memory) (lim.bind ResourcesLimits.memory)
  pure (.map [
    ("requests", .map [("cpu", .str (or_ (req.bind ResourcesLimits.cpu) r.env.requests.cpu)),
      ("memory", .str (or_ (req.bind ResourcesLimits.memory) r.env.requests.memory))]),
    ("limits", .map (field "cpu" ((lim.bind ResourcesLimits.cpu).map .str) ++
      [("memory", .str memory)]))])

def httpHeader (h : String × String) : Value := .map [("name", .str h.1), ("value", .str h.2)]

def probe (cname name : String) (probe : ContainerProbe) : Built (Option Value) :=
  match probe.httpGet, probe.exec with
  | some _, some _ => do
    Built.fail "container %q %s: httpGet or exec, not both" [.str cname, .str name] []
    pure none
  | some get, none => pure (some (.map [("httpGet", .map ([("path", .str get.path),
      ("port", .num get.port)] ++ field "host" (get.host.map .str) ++
      field "scheme" (get.scheme.map .str) ++ listField "httpHeaders" (get.httpHeaders.map httpHeader)))]))
  | none, some command => pure (some (.map [("exec", .map [("command", strList command)])]))
  | none, none => do
    Built.fail "container %q %s: needs httpGet or exec" [.str cname, .str name] []
    pure none

/-- The probe that is given, or a default. -/
def probeOr (cname name : String) (given : Option ContainerProbe) (default : Option Value) :
    Built (Option Value) :=
  match given with
  | some given => probe cname name given
  | none => pure default

/-- A check that a port can be reached. -/
def portProbe (port : ℤ) : Option Value :=
  if port > 0 then some (.map [("tcpSocket", .map [("port", .num port)])]) else none

/-- `volumeSource`: the resource that a volume's source refers to. -/
def volumeId (source : String) : Option String := do
  let s ← strip "$\x7bresources.".toList source.toList
  let id := s.takeWhile fun c => c ≠ '.' && c ≠ '}'
  if id ≠ [] ∧ s.dropWhile (fun c => c ≠ '.' && c ≠ '}') = ['}'] then some (String.ofList id) else none

def volumeName (id : String) : String := "vol-" ++ id

def Built.useVolume (id : String) : Built Unit := ⟨(), { Effects.none with usedVolumes := [id] }⟩

def Built.useTmp : Built Unit := ⟨(), { Effects.none with needTmp := true }⟩

def volumeMount (cname target : String) (v : ContainerVolume) : Built (Option Mount) :=
  match volumeId v.source with
  | none => do
    Built.fail "container %q volume %q: source must be $\x7bresources.<volume resource>\x7d"
      [.str cname, .str target] []
    pure none
  | some id =>
    if (lookup p.volumes id).isNone then do
      Built.fail "container %q volume %q: %q is not a volume resource"
        [.str cname, .str target, .str id] []
      pure none
    else do
      Built.useVolume id
      pure (some ⟨volumeName id, target, v.path, v.readOnly.getD false⟩)

def tmpMount : Mount := ⟨"tmp", "/tmp", none, false⟩

def volumeMounts (cname : String) (c : Container) (files : FilesOut) : Built (List Mount) := do
  let found ← Built.forEach (sortedRows c.volumes) fun v => volumeMount p cname v.1 v.2
  let mounts := found ++ (files.mounts.filter fun m => m.1 = cname).map Prod.snd
  if found.any fun m => Text.cleanPath m.mountPath = "/tmp" then
    pure (sortBy Mount.mountPath mounts)
  else do
    Built.useTmp
    pure (sortBy Mount.mountPath (mounts ++ [tmpMount]))

def securityContext : Value :=
  .map ([("allowPrivilegeEscalation", .bool false), ("capabilities", .map [("drop", strList ["ALL"])]),
    ("readOnlyRootFilesystem", .bool r.ext.readOnlyRoot)] ++
    field "runAsUser" (r.ext.runAsUser.map fun n => .num n))

/-- What has been made of a container. -/
structure ContainerParts where
  env : List EnvEntry
  resources : Value
  livenessProbe : Option Value
  readinessProbe : Option Value
  mounts : List Mount

def containerObject (cname : String) (c : Container) (parts : ContainerParts) : Value :=
  .map ([("name", .str cname), ("image", .str c.image)] ++
    listField "command" (c.command.map .str) ++ listField "args" (c.args.map .str) ++
    listField "env" (parts.env.map (EnvEntry.toValue r.name)) ++
    [("resources", parts.resources)] ++ field "livenessProbe" parts.livenessProbe ++
    field "readinessProbe" parts.readinessProbe ++ [("securityContext", securityContext r)] ++
    listField "volumeMounts" (parts.mounts.map Mount.toValue))

def containerParts (files : FilesOut) (readinessPort : ℤ) (cname : String) (c : Container) :
    Built ContainerParts := do
  let env ← envVars (scope r p) cname c.vars
  let res ← resources r cname c.resources
  let liveness ← probeOr cname "livenessProbe" c.livenessProbe none
  let readiness ← probeOr cname "readinessProbe" c.readinessProbe (portProbe readinessPort)
  let mounts ← volumeMounts p cname c files
  pure ⟨env, res, liveness, readiness, mounts⟩

def container (files : FilesOut) (readinessPort : ℤ) (cname : String) (c : Container) :
    Built (Option Value) :=
  if c.image = "." ∨ c.image = "" then do
    Built.fail "container %q: image %q needs the image from the environment values file"
      [.str cname, .str c.image] []
    pure none
  else do
    let parts ← containerParts r p files readinessPort cname c
    pure (some (containerObject r cname c parts))

/-- The port of the readiness check that a single container without one gets. -/
def readinessPort : ℤ :=
  if r.workload.containers.rows.length = 1 && r.env.readinessFromPort then firstServicePort r else 0

def containers (files : FilesOut) : Built (List Value) :=
  Built.forEach (sortedRows r.workload.containers) fun c =>
    container r p files (readinessPort r) c.1 c.2

end Containers

section Passes
variable (r : Renderer) (p : Provided)

def profileName : String := orDefault r.ext.profile r.env.defaultProfile

def profile : Built (Option Profile) :=
  if profileName r = "" then pure none
  else match lookup r.env.profiles (profileName r) with
    | some profile => pure (some profile)
    | none => do
      Built.fail "annotation %s: %q is not a profile of environment %q (%v)"
        [.str "kubeast.io/profile", .str (profileName r), .str r.env.name,
          strList (sortedKeys r.env.profiles)] []
      pure none

def replicas : ℤ := r.ext.replicas.getD r.env.replicas

def kubeAPI : Bool := p.sa.any SaRes.kubeAPI

def serviceAccount : Built Unit :=
  r.add "v1" "ServiceAccount" r.name
    (match p.sa with
      | some sa =>
        if sa.class_ = "aws-irsa" then [("eks.amazonaws.com/role-arn", .str sa.roleARN)] else []
      | none => [])
    [("automountServiceAccountToken", .bool (kubeAPI p))]

/-- The keys of a secret that have been looked up, in order. -/
def usedKeys (used : List (String × String)) (id : String) : List String :=
  Text.sortStrings ((used.filter fun u => u.1 = id).map Prod.snd).dedup

def remoteRef (res : SecretRes) (k : String) : Value :=
  .map [("secretKey", .str k), ("remoteRef", .map [("key", .str res.key),
    ("property", .str ((res.properties.lookup k).getD k))])]

def externalSecret (store : SecretStore) (id : String) (res : SecretRes) (keys : List String) : Value :=
  r.object "external-secrets.io/v1" "ExternalSecret" (secretName r.name id) []
    [("spec", .map [
      ("refreshInterval", .str store.refreshInterval),
      ("secretStoreRef", .map [("kind", .str store.kind), ("name", .str store.name)]),
      ("target", .map [("name", .str (secretName r.name id)), ("creationPolicy", .str "Owner")]),
      ("data", .list (keys.map (remoteRef res)))])]

/-- A secret resource is provided only where the environment has a store. -/
def externalSecrets (used : List (String × String)) : Built (List Unit) :=
  Built.forEach (sortedRows p.secrets) fun s =>
    if usedKeys used s.1 = [] then do
      Built.note "resource %q (secret): no ExternalSecret, nothing refers to it" [.str s.1]
      pure none
    else match r.env.secretStore with
      | some store => do
        Built.object (externalSecret r store s.1 s.2 (usedKeys used s.1))
        pure none
      | none => pure none

def portObject (p : String × ServicePort) : Value :=
  .map [("name", .str p.1), ("port", .num p.2.port), ("targetPort", .num (p.2.targetPort.getD p.2.port)),
    ("protocol", .str (p.2.protocol.getD "TCP"))]

def service : Built Unit :=
  if r.workload.ports.rows = [] then pure ()
  else r.add "v1" "Service" r.name [] [("spec", .map [("selector", r.selector),
    ("ports", .list ((sortedRows r.workload.ports).map portObject))])]

def topologyKey : String → String
  | "zone" => "topology.kubernetes.io/zone"
  | "hostname" => "kubernetes.io/hostname"
  | _ => ""

def matchLabels : Value := .map [("matchLabels", r.selector)]

def spreadConstraint (s : String) : Value :=
  .map [("maxSkew", .num 1), ("topologyKey", .str (topologyKey s)),
    ("whenUnsatisfiable", .str "ScheduleAnyway"), ("labelSelector", matchLabels r)]

def tolerationObject (t : Toleration) : Value :=
  .map (([("key", t.key), ("operator", t.operator), ("value", t.value), ("effect", t.effect)].filter
      fun f => f.2 ≠ "").map (fun f => (f.1, .str f.2)) ++
    field "tolerationSeconds" (t.tolerationSeconds.map fun n => .num n))

/-- The volumes of the pod: what the containers were found to need, by name. -/
def podVolumes (files : FilesOut) (seen : Effects) : List PodVolume :=
  sortBy PodVolume.name
    ((if seen.needTmp then [⟨"tmp", ("emptyDir", .map [("sizeLimit", .str r.env.tmpSize)])⟩] else []) ++
      files.volume.toList ++
      ((sortedRows p.volumes).filter fun v => v.1 ∈ seen.usedVolumes).map
        fun v => ⟨volumeName v.1, ("emptyDir", v.2)⟩)

def podSpec (containers : List Value) (volumes : List PodVolume) (profile : Option Profile) : Value :=
  .map ([("serviceAccountName", .str r.name), ("automountServiceAccountToken", .bool (kubeAPI p)),
      ("securityContext", .map [("runAsNonRoot", .bool true),
        ("seccompProfile", .map [("type", .str "RuntimeDefault")])]),
      ("containers", .list containers)] ++
    (if r.ext.hostUsers.getD r.env.hostUsers then [] else [("hostUsers", .bool false)]) ++
    listField "topologySpreadConstraints" ((r.ext.spread.getD r.env.spread).map (spreadConstraint r)) ++
    profile.toList.flatMap (fun profile => mapField "nodeSelector" profile.nodeSelector ++
      listField "tolerations" (profile.tolerations.map tolerationObject)) ++
    listField "volumes" (volumes.map PodVolume.toValue))

/-- `intOrPercent`: a number is written as one. -/
def intOrPercent (s : String) : Value :=
  match Text.atoi s with
  | some n => .num n
  | none => .str s

/-- What the workload is let off. -/
def exceptions : List (String × Value) :=
  (if r.ext.readOnlyRoot then [] else
    [("kubeast.io/read-only-root-reason", .str r.ext.readOnlyRootReason)]) ++
  if r.ext.policyExceptions = [] then [] else
    [("kubeast.io/policy-exception", .str (",".intercalate r.ext.policyExceptions)),
      ("kubeast.io/policy-exception-reason", .str r.ext.policyExceptionReason)]

def podTemplate (pod : Value) (hash : String) : Value :=
  .map [("metadata", .map ([("labels", .map r.labels)] ++
      if hash = "" then [] else [("annotations", .map [(annFilesHash, .str hash)])])),
    ("spec", pod)]

def deploymentObject (pod : Value) (hash : String) : Value :=
  r.object "apps/v1" "Deployment" r.name (exceptions r)
    [("spec", .map ([("selector", matchLabels r),
      ("strategy", .map [("type", .str "RollingUpdate"), ("rollingUpdate", .map
        [("maxSurge", intOrPercent r.env.maxSurge), ("maxUnavailable", .num 0)])]),
      ("template", podTemplate r pod hash)] ++
      if r.ext.autoscale.isNone then [("replicas", .num (replicas r))] else []))]

/-- Volumes that no container mounts are noted. -/
def unmounted (seen : Effects) : Built (List Unit) :=
  Built.forEach (sortedRows p.volumes) fun v =>
    if v.1 ∈ seen.usedVolumes then pure none else do
      Built.note "resource %q (volume): not mounted by any container" [.str v.1]
      pure none

def deployment (containers : List Value) (files : FilesOut) (profile : Option Profile) (seen : Effects) :
    Built Unit := do
  let _ ← unmounted p seen
  Built.object (deploymentObject r (podSpec r p containers (podVolumes r p files seen) profile) files.hash)

def scaleTarget : Value :=
  .map [("apiVersion", .str "apps/v1"), ("kind", .str "Deployment"), ("name", .str r.name)]

def autoscaler : Built Unit :=
  match r.ext.autoscale with
  | none => pure ()
  | some a => r.add "autoscaling/v2" "HorizontalPodAutoscaler" r.name []
      [("spec", .map [("scaleTargetRef", scaleTarget r), ("minReplicas", .num a.min),
        ("maxReplicas", .num a.max),
        ("metrics", .list [.map [("type", .str "Resource"), ("resource", .map
          [("name", .str a.resource), ("target", .map
            [("type", .str "Utilization"), ("averageUtilization", .num a.target)])])]])])]

def budget (limit : String) (n : ℤ) : Built Unit :=
  r.add "policy/v1" "PodDisruptionBudget" r.name []
    [("spec", .map [("selector", matchLabels r), (limit, .num n)])]

/-- None with one replica, where it would block every drain. -/
def disruptionBudget : Built Unit :=
  let least := (r.ext.autoscale.map Autoscale.min).getD (replicas r)
  match r.ext.pdb with
  | .off => pure ()
  | .auto => if least < 2 then pure () else budget r "maxUnavailable" 1
  | .maxUnavailable n => budget r "maxUnavailable" n
  | .minAvailable n => do
    if n ≥ least then
      Built.note ("annotation %s: min-available=%d with at least %d replica(s) lets no pod be evicted, " ++
        "so drains wait") [.str "kubeast.io/pdb", .num n, .num least]
    else pure ()
    budget r "minAvailable" n

def serviceMonitor : Built Unit :=
  match r.ext.scrape with
  | none => pure ()
  | some s =>
    if (lookup r.ownPorts s.port).isNone then
      Built.fail "annotation %s: %q is not a port name in service.ports"
        [.str "kubeast.io/scrape", .str s.port] []
    else if !r.env.capabilities.serviceMonitor then
      Built.note ("annotation %s: no ServiceMonitor, the target cluster of environment %q has no " ++
        "prometheus-operator") [.str "kubeast.io/scrape", .str r.env.name]
    else r.add "monitoring.coreos.com/v1" "ServiceMonitor" r.name []
      [("spec", .map [("selector", matchLabels r),
        ("endpoints", .list [.map [("port", .str s.port), ("path", .str s.path)]])])]

end Passes
end Kubeast.Render
