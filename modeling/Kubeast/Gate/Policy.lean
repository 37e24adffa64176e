import Kubeast.Foundation.Rego
import Kubeast.Foundation.Text
import Mathlib.Data.List.Infix

/-! The gate's default policy (`internal/gate/policy.rego`). -/
namespace Kubeast.Gate
open Rego

/-- What `sprintf` is given: the text of the format, and the values it writes in between. -/
inductive Part
  | text (s : String)
  | value (v : Value)

/-- An element of `data.kubeast.deploy.finding`. -/
structure Finding where
  rule : String
  kind : Value
  name : Value
  msg : List Part

def dot (v : Value) (k : String) : Term := Term.dot (some v) k

def workloadKinds : List String := ["Deployment", "StatefulSet", "DaemonSet", "ReplicaSet", "Job"]

def podSpec (obj : Value) : Term :=
  if (dot obj "kind").any fun kind => decide (kind ∈ workloadKinds.map Value.str) then
    (((dot obj "spec").dot "template").dot "spec")
  else if eq (dot obj "kind") (.str "CronJob") then
    ((((dot obj "spec").dot "jobTemplate").dot "spec").dot "template").dot "spec"
  else if eq (dot obj "kind") (.str "Pod") then dot obj "spec"
  else none

structure Pod where
  obj : Value
  spec : Value

def pods (objects : List Value) : List Pod := objects.filterMap fun obj => (podSpec obj).map (⟨obj, ·⟩)

def noItems : Term := some (.list [])

def allContainers (spec : Value) : Term :=
  concat (concat (objectGet (some spec) "containers" noItems)
      (objectGet (some spec) "initContainers" noItems))
    (objectGet (some spec) "ephemeralContainers" noItems)

def found (rule : String) (obj : Value) (msg : Option (List Part)) : Option Finding :=
  match dot obj "kind", (dot obj "metadata").dot "name", msg with
  | some kind, some name, some msg => some ⟨rule, kind, name, msg⟩
  | _, _, _ => none

/-- `sprintf("container %s…", [c.name, …])`. -/
def containerMsg (c : Value) (rest : List Part) : Option (List Part) :=
  (dot c "name").map fun name => .text "container " :: .value name :: rest

/-- A rule on each of some containers. -/
def containerRule (rule : String) (containers : Value → Term) (breaks : Value → Value → Bool)
    (rest : String) (p : Pod) : List Finding :=
  (items (containers p.spec)).filterMap fun c =>
    if breaks p.spec c then found rule p.obj (containerMsg c [.text rest]) else none

/-- A rule on the pod. -/
def podRule (rule : String) (breaks : Value → Bool) (msg : String) (p : Pod) : List Finding :=
  if breaks p.spec then (found rule p.obj (some [.text msg])).toList else []

section PodSecurity

def runAsNonRoot : Pod → List Finding :=
  containerRule "run-as-non-root" allContainers
    (fun spec c => ne (objectGetPath (some c) ["securityContext", "runAsNonRoot"]
      (objectGetPath (some spec) ["securityContext", "runAsNonRoot"] (some (.bool false)))) (.bool true))
    ": runAsNonRoot must be true (on the container or the pod)"

def podRunsAsRoot : Pod → List Finding :=
  podRule "run-as-user-not-root"
    (fun spec => eq ((dot spec "securityContext").dot "runAsUser") (.num 0)) "the pod sets runAsUser 0"

def containerRunsAsRoot : Pod → List Finding :=
  containerRule "run-as-user-not-root" allContainers
    (fun _ c => eq ((dot c "securityContext").dot "runAsUser") (.num 0)) ": runAsUser 0"

def noPrivilegeEscalation : Pod → List Finding :=
  containerRule "no-privilege-escalation" allContainers
    (fun _ c => ne (objectGetPath (some c) ["securityContext", "allowPrivilegeEscalation"]
      (some (.bool true))) (.bool false))
    ": allowPrivilegeEscalation must be false"

def dropsAll : Pod → List Finding :=
  containerRule "drop-all-capabilities" allContainers
    (fun _ c => !mem (.str "ALL")
      (objectGetPath (some c) ["securityContext", "capabilities", "drop"] noItems))
    ": capabilities.drop must hold ALL"

/-- One finding for each capability added. -/
def addsNone (p : Pod) : List Finding :=
  (items (allContainers p.spec)).flatMap fun c =>
    (items (objectGetPath (some c) ["securityContext", "capabilities", "add"] noItems)).filterMap
      fun cap =>
        if cap ≠ .str "NET_BIND_SERVICE" then
          found "drop-all-capabilities" p.obj (containerMsg c [.text ": adds capability ", .value cap,
            .text " (only NET_BIND_SERVICE is allowed)"])
        else none

def seccompProfile : Pod → List Finding :=
  containerRule "seccomp-profile" allContainers
    (fun spec c =>
      (objectGetPath (some c) ["securityContext", "seccompProfile", "type"]
        (objectGetPath (some spec) ["securityContext", "seccompProfile", "type"] (some (.str "")))).any
        fun t => decide (t ∉ [Value.str "RuntimeDefault", Value.str "Localhost"]))
    ": seccompProfile.type must be RuntimeDefault or Localhost (on the container or the pod)"

def noPrivileged : Pod → List Finding :=
  containerRule "no-privileged" allContainers
    (fun _ c => eq ((dot c "securityContext").dot "privileged") (.bool true)) ": privileged"

def hostFields : List String := ["hostNetwork", "hostPID", "hostIPC"]

def noHostNamespaces (p : Pod) : List Finding :=
  hostFields.flatMap fun field =>
    podRule "no-host-namespaces" (fun spec => eq (dot spec field) (.bool true)) (field ++ " is true") p

def noHostPath (p : Pod) : List Finding :=
  (items (objectGet (some p.spec) "volumes" noItems)).filterMap fun v =>
    if truthy (dot v "hostPath") then
      found "no-host-path" p.obj
        ((dot v "name").map fun name => [.text "volume ", .value name, .text " is a hostPath"])
    else none

end PodSecurity

section GoldenPath

def hostUsers : Pod → List Finding :=
  podRule "host-users" (fun spec => ne (objectGet (some spec) "hostUsers" (some (.bool true))) (.bool false))
    "hostUsers must be false (a user namespace per pod)"

def ownContainers (spec : Value) : Term := objectGet (some spec) "containers" noItems

def readOnlyRoot (p : Pod) : List Finding :=
  if eq (objectGetPath (some p.obj) ["metadata", "annotations", "kubeast.io/read-only-root-reason"]
      (some (.str ""))) (.str "") then
    containerRule "read-only-root" ownContainers
      (fun _ c => ne (objectGetPath (some c) ["securityContext", "readOnlyRootFilesystem"]
        (some (.bool false))) (.bool true))
      ": readOnlyRootFilesystem must be true, or the object carries kubeast.io/read-only-root-reason"
      p
  else []

def resourceRequests (p : Pod) : List Finding :=
  ["cpu", "memory"].flatMap fun r =>
    containerRule "resource-requests" ownContainers
      (fun _ c => !truthy (((dot c "resources").dot "requests").dot r))
      (": resources.requests." ++ r ++ " is required") p

def memoryLimit : Pod → List Finding :=
  containerRule "memory-limit" ownContainers
    (fun _ c => !truthy (((dot c "resources").dot "limits").dot "memory"))
    ": resources.limits.memory is required"

/-- A built-in that tests a string. -/
def strTest (t : Term) (test : String → Bool) : Bool :=
  match t with
  | some (.str s) => test s
  | _ => false

def contains (s t : String) : Bool := decide (t.toList <:+: s.toList)

/-- `image_name`: what follows the last slash. -/
def imageName (image : String) : String :=
  String.ofList ((image.toList.splitOn '/').getLastD [])

/-- A finding that shows the image, which must be there to be shown. -/
def imageRule (rule : String) (breaks : Term → Bool) (rest : List Part) (p : Pod) : List Finding :=
  (items (allContainers p.spec)).filterMap fun c =>
    if breaks (dot c "image") then
      (dot c "image").bind fun image =>
        found rule p.obj (containerMsg c (.text ": image " :: .value image :: rest))
    else none

def imageTag : Pod → List Finding :=
  imageRule "image-tag"
    (fun image => !strTest image (fun s => contains (imageName s) ":") &&
      !strTest image fun s => contains s "@sha256:") [.text " has no tag or digest"]

def noLatestTag : Pod → List Finding :=
  imageRule "no-latest-tag"
    (fun image => strTest image fun s => decide (":latest".toList <:+ s.toList)) [.text " uses the latest tag"]

def fromAllowed (registries : List String) (image : Term) : Bool :=
  registries.any fun pre => strTest image fun s => Text.hasPrefix s pre

def allowedRegistry (registries : List String) (p : Pod) : List Finding :=
  if 0 < registries.length then
    imageRule "allowed-registry" (fun image => !fromAllowed registries image)
      [.text " is not from ", .value (.list (registries.map .str))] p
  else []

end GoldenPath

def podSecurity (p : Pod) : List Finding :=
  runAsNonRoot p ++ podRunsAsRoot p ++ containerRunsAsRoot p ++ noPrivilegeEscalation p ++
    dropsAll p ++ addsNone p ++ seccompProfile p ++ noPrivileged p ++ noHostNamespaces p ++
    noHostPath p

def goldenPath (registries : List String) (p : Pod) : List Finding :=
  hostUsers p ++ readOnlyRoot p ++ resourceRequests p ++ memoryLimit p ++ imageTag p ++
    noLatestTag p ++ allowedRegistry registries p

/-- `data.kubeast.deploy.finding` for the input's objects and allowed registries. -/
def finding (registries : List String) (objects : List Value) : List Finding :=
  (pods objects).flatMap fun p => podSecurity p ++ goldenPath registries p

end Kubeast.Gate
