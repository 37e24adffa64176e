import Kubeast.PodRow.Row
import Mathlib.Data.List.Dedup

/-! A pod with all that its row says (`k8s.io/api/core/v1`), and the whole row (`podrow.go`, `status.go`). -/
namespace Kubeast.PodRow.Corev1

/-- A Go map, none where it is nil. -/
abbrev GoMap (α : Type) := Option (List (String × α))

structure ContainerPort where
  name : String
  containerPort : Int32
  protocol : String

structure ResourceRequirements (Q : Type) where
  limits : GoMap Q
  requests : GoMap Q

structure VolumeMount where
  name : String
  mountPath : String
  readOnly : Bool

/-- The names of the ConfigMap and of the Secret an entry takes its value from. -/
structure EnvVarSource where
  configMapKeyRef : Option String
  secretKeyRef : Option String

structure EnvVar where
  name : String
  value : String
  valueFrom : Option EnvVarSource

/-- `ConfigMapEnvSource`, `SecretEnvSource`. -/
structure EnvSource where
  name : String
  optional : Option Bool

structure EnvFromSource where
  envPrefix : String
  configMapRef : Option EnvSource
  secretRef : Option EnvSource

structure Capabilities where
  add : List String
  drop : List String

structure SecurityContext where
  runAsUser : Option Int64
  runAsGroup : Option Int64
  runAsNonRoot : Option Bool
  readOnlyRootFilesystem : Option Bool
  allowPrivilegeEscalation : Option Bool
  privileged : Option Bool
  capabilities : Option Capabilities

structure Container (Q : Type) where
  name : String
  image : String
  ports : List ContainerPort
  resources : ResourceRequirements Q
  volumeMounts : List VolumeMount
  env : List EnvVar
  envFrom : List EnvFromSource
  securityContext : Option SecurityContext
  command : List String
  args : List String
  restartPolicy : Option String

/-- The names in a source of a projected volume. -/
structure VolumeProjection where
  configMap : Option String
  secret : Option String

structure Volume where
  name : String
  configMap : Option String
  secret : Option String
  projected : Option (List VolumeProjection)

structure OwnerReference where
  kind : String
  name : String
  uid : String
  controller : Option Bool

structure PodResourceClaim where
  name : String
  resourceClaimName : Option String
  resourceClaimTemplateName : Option String

structure Terminated where
  exitCode : Int32
  signal : Int32
  reason : String
  message : String
  startedAt : ℤ
  finishedAt : ℤ

structure ContainerState where
  waiting : Option Waiting
  running : Option Running
  terminated : Option Terminated

structure ContainerStatus where
  name : String
  ready : Bool
  started : Option Bool
  restartCount : Int32
  state : ContainerState
  lastTerminationState : ContainerState

structure Pod (Q : Type) where
  name : String
  ns : String
  creationTimestamp : ℤ
  deletionTimestamp : Option ℤ
  labels : GoMap String
  ownerReferences : List OwnerReference
  nodeName : String
  serviceAccountName : String
  priorityClassName : String
  runtimeClassName : Option String
  containers : List (Container Q)
  initContainers : List (Container Q)
  volumes : List Volume
  imagePullSecrets : List String
  resourceClaims : List PodResourceClaim
  phase : String
  reason : String
  message : String
  podIP : String
  conditions : List Condition
  containerStatuses : List ContainerStatus
  initContainerStatuses : List ContainerStatus

section View
variable {Q : Type}

def Terminated.view (t : Terminated) : PodRow.Terminated :=
  ⟨t.exitCode.toInt, t.signal.toInt, t.reason, t.message, t.startedAt, t.finishedAt⟩

def ContainerState.view (s : ContainerState) : PodRow.ContainerState :=
  ⟨s.waiting, s.running, s.terminated.map Terminated.view⟩

def ContainerStatus.view (cs : ContainerStatus) : PodRow.ContainerStatus where
  name := cs.name
  state := cs.state.view
  lastTerminationState := cs.lastTerminationState.view
  ready := cs.ready
  restartCount := cs.restartCount.toInt
  started := cs.started

def restartableInit (c : Container Q) : Bool := c.restartPolicy = some "Always"

def Container.view (c : Container Q) : PodRow.Container :=
  ⟨c.name, if restartableInit c then some "Always" else none⟩

/-- What the Status and the reasons are decided by. -/
def Pod.view (p : Pod Q) : PodRow.Pod where
  deletionTimestamp := p.deletionTimestamp
  initContainers := p.initContainers.map Container.view
  containers := p.containers.map Container.view
  phase := p.phase
  conditions := p.conditions
  reason := p.reason
  message := p.message
  initContainerStatuses := p.initContainerStatuses.map ContainerStatus.view
  containerStatuses := p.containerStatuses.map ContainerStatus.view

end View

inductive Panic
  | nilDereference

/-- `*x`. -/
def deref {α : Type} : Option α → Except Panic α
  | some a => .ok a
  | none => .error .nilDereference

section Row
variable {Q : Type} (quantity : Q → String)

/-- A key that is set where there is something to say. -/
def opt (k : String) (v : Option Value) : List (String × Value) := (v.map fun v => (k, v)).toList

def text (s : String) : Option Value := if s ≠ "" then some (.str s) else none

def strs (l : List String) : Value := .list (l.map .str)

def texts (l : List String) : Option Value := if l ≠ [] then some (strs l) else none

def portRow (port : ContainerPort) : Value :=
  .map [("container_port", .num port.containerPort.toInt), ("protocol", .str port.protocol), ("name", .str port.name)]

def quantities (m : List (String × Q)) : Value := .map (m.map fun kv => (kv.1, .str (quantity kv.2)))

def resourcesRow (r : ResourceRequirements Q) : Value :=
  .map (opt "requests" (r.requests.map (quantities quantity)) ++ opt "limits" (r.limits.map (quantities quantity)))

def mountRow (vm : VolumeMount) : Value :=
  .map [("name", .str vm.name), ("mount_path", .str vm.mountPath), ("read_only", .bool vm.readOnly)]

def envFromRow (ef : EnvFromSource) : Value :=
  .map (opt "prefix" (text ef.envPrefix) ++
    match ef.configMapRef, ef.secretRef with
    | some r, _ => ("config_map", .str r.name) :: opt "optional" (r.optional.map .bool)
    | none, some r => ("secret", .str r.name) :: opt "optional" (r.optional.map .bool)
    | none, none => [])

def capabilitiesRow (c : Capabilities) : Option Value :=
  let caps := opt "add" (texts c.add) ++ opt "drop" (texts c.drop)
  if caps.isEmpty then none else some (.map caps)

def containerSecurityContext (c : SecurityContext) : List (String × Value) :=
  opt "run_as_user" (c.runAsUser.map fun n => .num n.toInt) ++
    opt "run_as_group" (c.runAsGroup.map fun n => .num n.toInt) ++
    opt "run_as_non_root" (c.runAsNonRoot.map .bool) ++
    opt "read_only_root_filesystem" (c.readOnlyRootFilesystem.map .bool) ++
    opt "allow_privilege_escalation" (c.allowPrivilegeEscalation.map .bool) ++
    opt "privileged" (c.privileged.map .bool) ++ opt "capabilities" (c.capabilities.bind capabilitiesRow)

def securityRow (c : Option SecurityContext) : Option Value :=
  let sc := (c.map containerSecurityContext).getD []
  if sc.isEmpty then none else some (.map sc)

/-- A container, with what the last status of its name says. -/
def containerRow (statuses : List ContainerStatus) (c : Container Q) : Value :=
  .map ([("name", .str c.name), ("image", .str c.image), ("ports", .list (c.ports.map portRow)),
      ("resources", resourcesRow quantity c.resources), ("volume_mounts", .list (c.volumeMounts.map mountRow)),
      ("env_count", .num c.env.length), ("env_from", .list (c.envFrom.map envFromRow))] ++
    opt "security_context" (securityRow c.securityContext) ++ opt "command" (texts c.command) ++
    opt "args" (texts c.args) ++
    match (statuses.filter fun cs => cs.name = c.name).getLast? with
    | some cs =>
        [("ready", .bool cs.ready), ("restart_count", .num cs.restartCount.toInt),
          ("state", containerState cs.state.view), ("last_state", containerState cs.lastTerminationState.view)]
    | none => [])

/-- The restart policy, of a sidecar alone. -/
def policyEntry (c : Container Q) : Except Panic (List (String × Value)) :=
  if restartableInit c then (deref c.restartPolicy).map fun policy => [("restart_policy", .str policy)] else .ok []

def startedEntry (c : Container Q) (cs : ContainerStatus) : Except Panic (List (String × Value)) :=
  if restartableInit c && cs.started.isSome then (deref cs.started).map fun b => [("started", .bool b)] else .ok []

/-- What the first status of its name says of an init container. -/
def statusEntries (statuses : List ContainerStatus) (c : Container Q) : Except Panic (List (String × Value)) :=
  match statuses.find? fun cs => cs.name = c.name with
  | some cs => (startedEntry c cs).map fun started =>
      [("ready", .bool cs.ready), ("restart_count", .num cs.restartCount.toInt),
        ("state", containerState cs.state.view)] ++ started
  | none => .ok []

def initContainerRow (statuses : List ContainerStatus) (c : Container Q) : Except Panic Value := do
  let policy ← policyEntry c
  let status ← statusEntries statuses c
  .ok (.map ([("name", .str c.name), ("image", .str c.image)] ++ policy ++ status))

/-- The numbers of `initView`. -/
structure InitCounts where
  restarts : Int32
  sidecarRestarts : Int32
  sidecarsReady : ℕ

/-- The container that a map by name holds: the last of the name. -/
def specOf (p : Pod Q) (name : String) : Option (Container Q) :=
  (p.initContainers.filter fun c => c.name = name).getLast?

/-- The loop of `initState`, up to the init container that is not done. -/
def initCounts (p : Pod Q) (v : InitCounts) : List ContainerStatus → InitCounts
  | [] => v
  | cs :: rest =>
    let sidecar := (specOf p cs.name).any restartableInit
    let v := { v with
      restarts := v.restarts + cs.restartCount
      sidecarRestarts := if sidecar then v.sidecarRestarts + cs.restartCount else v.sidecarRestarts }
    if cs.state.terminated.any (fun t => t.exitCode = 0) = true then initCounts p v rest
    else if sidecar && cs.started = some true then
      initCounts p { v with sidecarsReady := if cs.ready then v.sidecarsReady + 1 else v.sidecarsReady } rest
    else v

structure Counts where
  ready : ℕ
  total : ℕ
  restarts : Int32

/-- READY and RESTARTS. -/
def counts (p : Pod Q) : Counts :=
  let status := (initState p.view).status
  let v := initCounts p ⟨0, 0, 0⟩ p.initContainerStatuses
  let running := p.containerStatuses.filter fun cs => cs.ready && cs.state.running.isSome
  let restarts := (p.containerStatuses.map ContainerStatus.restartCount).foldl (· + ·) 0
  { ready := v.sidecarsReady + if status = "" then running.length else 0
    total := p.containers.length + (p.initContainers.filter restartableInit).length
    restarts := if status ≠ "" then v.restarts else restarts + v.sidecarRestarts }

def named (name : Option String) : List String := name.toList.filter fun s => s ≠ ""

/-- What `references` finds of one kind in the volumes and the environments. -/
def references (volume : Volume → Option String) (source : VolumeProjection → Option String)
    (whole : EnvFromSource → Option EnvSource) (key : EnvVarSource → Option String) (p : Pod Q) : List String :=
  p.volumes.flatMap (fun v => named (volume v) ++ (v.projected.getD []).flatMap fun src => named (source src)) ++
    (p.containers ++ p.initContainers).flatMap fun c =>
      c.envFrom.flatMap (fun e => named ((whole e).map EnvSource.name)) ++
        c.env.flatMap fun env => named (env.valueFrom.bind key)

def configMaps (p : Pod Q) : List String :=
  references Volume.configMap VolumeProjection.configMap EnvFromSource.configMapRef EnvVarSource.configMapKeyRef p

def secrets (p : Pod Q) : List String :=
  references Volume.secret VolumeProjection.secret EnvFromSource.secretRef EnvVarSource.secretKeyRef p ++
    p.imagePullSecrets.filter fun s => s ≠ ""

/-- `slices.Sorted(maps.Keys(names))`. -/
def sortedKeys (names : List String) : List String := Text.sortStrings names.dedup

def ownerRow (r : OwnerReference) : Value :=
  .map [("kind", .str r.kind), ("name", .str r.name), ("uid", .str r.uid),
    ("controller", .bool (r.controller.getD false))]

def labelsRow : GoMap String → Value
  | none => .null
  | some labels => .map (labels.map fun kv => (kv.1, .str kv.2))

/-- The row, once the init containers have theirs. -/
def members (p : Pod Q) (initContainers : List Value) : List (String × Value) :=
  let n := counts p
  let (reason, message) := reasonAndMessage p.reason p.message p.view.containerStatuses
  [("name", .str p.name), ("namespace", .str p.ns), ("status", .str (listView p.view)), ("phase", .str p.phase),
      ("reason", .str reason), ("status_reason", .str reason), ("message", .str message),
      ("status_message", .str message), ("node_name", .str p.nodeName), ("pod_ip", .str p.podIP),
      ("containers", .list (p.containers.map (containerRow quantity p.containerStatuses))),
      ("init_containers", .list initContainers), ("labels", labelsRow p.labels),
      ("restart_count", .num n.restarts.toInt), ("ready", .str (toString n.ready ++ "/" ++ toString n.total)),
      ("created_at", .str (iso p.creationTimestamp))] ++
    opt "deletion_timestamp" (p.deletionTimestamp.map fun t => .str (iso t)) ++
    opt "owner_references"
      (if p.ownerReferences.isEmpty then none else some (.list (p.ownerReferences.map ownerRow))) ++
    opt "service_account_name" (text p.serviceAccountName) ++ opt "priority_class_name" (text p.priorityClassName) ++
    opt "runtime_class_name" (p.runtimeClassName.bind text) ++
    opt "resource_claims" (texts (p.resourceClaims.flatMap fun rc => named rc.resourceClaimName)) ++
    opt "resource_claim_templates" (texts (p.resourceClaims.flatMap fun rc => named rc.resourceClaimTemplateName)) ++
    opt "config_map_refs" (texts (sortedKeys (configMaps p))) ++ opt "secret_refs" (texts (sortedKeys (secrets p)))

def info (p : Pod Q) : Except Panic Value := do
  let initContainers ← p.initContainers.mapM (initContainerRow p.initContainerStatuses)
  .ok (.map (members quantity p initContainers))

end Row
end Kubeast.PodRow.Corev1
