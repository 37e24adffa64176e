import Kubeast.AuditChain.Anchor
import Kubeast.Foundation.Value
import Kubeast.Foundation.Text

/-! A pod as its row shows it (`k8s-service-go/internal/podrow`): its Status, its reason and the
states of its containers. Times are in microseconds since 1970. -/
namespace Kubeast.PodRow
open AuditChain

structure Waiting where
  reason : String
  message : String

structure Running where
  startedAt : ℤ

structure Terminated where
  exitCode : ℤ
  signal : ℤ
  reason : String
  message : String
  startedAt : ℤ
  finishedAt : ℤ

structure ContainerState where
  waiting : Option Waiting
  running : Option Running
  terminated : Option Terminated

structure ContainerStatus where
  name : String
  state : ContainerState
  lastTerminationState : ContainerState
  ready : Bool
  restartCount : ℤ
  started : Option Bool

structure Container where
  name : String
  restartPolicy : Option String

structure Condition where
  kind : String
  status : String
  reason : String

/-- `corev1.Pod`. -/
structure Pod where
  deletionTimestamp : Option ℤ
  initContainers : List Container
  containers : List Container
  phase : String
  conditions : List Condition
  reason : String
  message : String
  initContainerStatuses : List ContainerStatus
  containerStatuses : List ContainerStatus

def restartableInit (c : Container) : Bool := c.restartPolicy = some "Always"

/-- The container that a map by name holds: the last of the name. -/
def specOf (p : Pod) (name : String) : Option Container :=
  (p.initContainers.filter fun c => c.name = name).getLast?

def initialized (p : Pod) : Bool :=
  (p.conditions.find? fun c => c.kind = "Initialized").any fun c => c.status = "True"

/-- The loop of `initState`: what the first init container that is not done says. -/
def initReason (p : Pod) : ℕ → List ContainerStatus → String
  | _, [] => ""
  | i, cs :: rest =>
    let sidecar := (specOf p cs.name).any restartableInit
    if cs.state.terminated.any (fun t => t.exitCode = 0) = true then initReason p (i + 1) rest
    else if sidecar && cs.started = some true then initReason p (i + 1) rest
    else match cs.state.terminated, cs.state.waiting with
      | some t, _ =>
          if t.reason ≠ "" then "Init:" ++ t.reason
          else if t.signal ≠ 0 then "Init:Signal:" ++ toString t.signal
          else "Init:ExitCode:" ++ toString t.exitCode
      | none, w =>
          let reason := (w.map Waiting.reason).getD ""
          if reason ≠ "" ∧ reason ≠ "PodInitializing" then "Init:" ++ reason
          else "Init:" ++ toString i ++ "/" ++ toString p.initContainers.length

structure InitView where
  status : String
  reason : String

/-- `initState`, without the counts of READY and RESTARTS. -/
def initState (p : Pod) : InitView :=
  let reason := initReason p 0 p.initContainerStatuses
  ⟨if reason ≠ "" ∧ initialized p = false then reason else "", reason⟩

def readyCondition (p : Pod) : Bool := p.conditions.any fun c => c.kind = "Ready" && c.status = "True"

/-- The locals of `containersStatus`. -/
structure Walk where
  reason : String
  hasRunning : Bool
  errorReason : String

def walkStatus (w : Walk) (cs : ContainerStatus) : Walk :=
  if (cs.state.waiting.any fun s => s.reason ≠ "") = true then
    { w with reason := (cs.state.waiting.map Waiting.reason).getD "" }
  else match cs.state.terminated with
    | some t =>
        let reason :=
          if t.reason ≠ "" then t.reason
          else if t.signal ≠ 0 then "Signal:" ++ toString t.signal
          else "ExitCode:" ++ toString t.exitCode
        { w with reason := reason, errorReason := if t.exitCode ≠ 0 then reason else w.errorReason }
    | none => if cs.ready && cs.state.running.isSome then { w with hasRunning := true } else w

def containersStatus (p : Pod) (reason : String) : String :=
  let w := p.containerStatuses.reverse.foldl walkStatus ⟨reason, false, ""⟩
  if w.reason ≠ "Completed" then w.reason
  else if w.hasRunning && readyCondition p then "Running"
  else if w.errorReason ≠ "" then w.errorReason
  else if w.hasRunning then "NotReady"
  else w.reason

def statusTerminating : String := "Terminating"

/-- kubectl's STATUS. -/
def listStatus (p : Pod) (iv : InitView) : String :=
  let reason := if p.reason ≠ "" then p.reason else p.phase
  let reason :=
    if (p.conditions.any fun c => c.kind = "PodScheduled" && c.reason = "SchedulingGated") = true then
      "SchedulingGated"
    else reason
  let reason := if iv.reason ≠ "" then iv.reason else reason
  let reason := if iv.status = "" then containersStatus p reason else reason
  if p.deletionTimestamp.isSome ∧ p.reason = "NodeLost" then "Unknown"
  else if p.deletionTimestamp.isSome ∧ p.phase ≠ "Succeeded" ∧ p.phase ≠ "Failed" then statusTerminating
  else if reason = "" then "Unknown"
  else reason

/-- The Status of `ListView`. -/
def listView (p : Pod) : String := listStatus p (initState p)

/-- The zero `time.Time`: the first of January of the year 1. -/
def zeroTime : ℤ := -62135596800000000

def iso (t : ℤ) : String := if t = zeroTime then "" else rfc3339 t

def containerState (s : ContainerState) : Value :=
  .map ((s.running.map fun r => ("running", .map [("started_at", .str (iso r.startedAt))])).toList ++
    (s.waiting.map fun w =>
      ("waiting", .map [("reason", .str w.reason), ("message", .str w.message)])).toList ++
    (s.terminated.map fun t =>
      ("terminated", .map [("exit_code", .num t.exitCode), ("reason", .str t.reason),
        ("message", .str t.message), ("started_at", .str (iso t.startedAt)),
        ("finished_at", .str (iso t.finishedAt))])).toList)

/-- A container, with what the last status of its name says. -/
def containerRow (statuses : List ContainerStatus) (c : Container) : Value :=
  .map (("name", .str c.name) ::
    match (statuses.filter fun cs => cs.name = c.name).getLast? with
    | some cs =>
        [("ready", .bool cs.ready), ("restart_count", .num cs.restartCount),
          ("state", containerState cs.state), ("last_state", containerState cs.lastTerminationState)]
    | none => [])

/-- An init container, with what the first status of its name says. -/
def initContainerRow (statuses : List ContainerStatus) (c : Container) : Value :=
  .map (("name", .str c.name) ::
    ((if restartableInit c then [("restart_policy", .str (c.restartPolicy.getD ""))] else []) ++
      match statuses.find? fun cs => cs.name = c.name with
      | some cs =>
          [("ready", .bool cs.ready), ("restart_count", .num cs.restartCount),
            ("state", containerState cs.state)] ++
            (if restartableInit c then cs.started.toList.map fun b => ("started", .bool b) else [])
      | none => []))

/-- The pod's reason and message, or those of the first status that waits, before one that ended. -/
def reasonAndMessage (reason message : String) : List ContainerStatus → String × String
  | [] => (reason, message)
  | cs :: rest => match cs.state.waiting with
    | some w =>
        if w.reason ≠ "" then
          (if reason = "" then w.reason else reason, if message = "" then w.message else message)
        else if (cs.state.terminated.any fun t => t.reason ≠ "") = true then (reason, message)
        else reasonAndMessage reason message rest
    | none =>
        if (cs.state.terminated.any fun t => t.reason ≠ "") = true then (reason, message)
        else reasonAndMessage reason message rest

/-- The row of a pod: its Status, phase, reason and message, and its containers. -/
def info (p : Pod) : Value :=
  let (reason, message) := reasonAndMessage p.reason p.message p.containerStatuses
  .map ([("status", .str (listView p)), ("phase", .str p.phase), ("reason", .str reason),
    ("status_reason", .str reason), ("message", .str message), ("status_message", .str message),
    ("containers", .list (p.containers.map (containerRow p.containerStatuses))),
    ("init_containers", .list (p.initContainers.map (initContainerRow p.initContainerStatuses)))] ++
    (p.deletionTimestamp.map fun t => ("deletion_timestamp", .str (iso t))).toList)

end Kubeast.PodRow

/-! The colour of a pod's card, decided by the server over the pod (`internal/k8s/pod_index.go`) and
by the page over its row (`cluster-view/podHealth.tsx`). -/
namespace Kubeast.PodRow
open Text

inductive Level
  | ok
  | warn
  | error
deriving DecidableEq

def podErrorReasons : List String :=
  ["CrashLoopBackOff", "ImagePullBackOff", "ErrImagePull", "CreateContainerConfigError",
    "CreateContainerError", "RunContainerError", "ContainerCannotRun", "InvalidImageName",
    "ImageInspectError", "RegistryUnavailable", "ErrImageNeverPull", "OOMKilled", "Error"]

def podWarnReasons : List String := ["ContainerCreating", "PodInitializing", "Pending", "NotReady"]

def pickReason (reasons priority : List String) : String :=
  match priority.find? fun p => reasons.contains p with
  | some p => p
  | none => reasons.head?.getD ""

def isCompletedReason (r : String) : Bool := r = "Completed" || r = "Succeeded"

/-- The page's `pod.phase || pod.status || 'Unknown'`. -/
def listPhase (p : Pod) : String := if p.phase ≠ "" then p.phase else listView p

/-- The loop of `formattedReason`. -/
def waitingFirst : List ContainerStatus → String
  | [] => ""
  | cs :: rest => match cs.state.waiting with
    | some w =>
        if w.reason ≠ "" then w.reason
        else if (cs.state.terminated.any fun t => t.reason ≠ "") = true then ""
        else waitingFirst rest
    | none =>
        if (cs.state.terminated.any fun t => t.reason ≠ "") = true then "" else waitingFirst rest

def formattedReason (p : Pod) : String := if p.reason ≠ "" then p.reason else waitingFirst p.containerStatuses

def byName (statuses : List ContainerStatus) (name : String) : Option ContainerStatus :=
  statuses.find? fun cs => cs.name = name

def waitingReason (s : ContainerState) : Option String :=
  (s.waiting.map Waiting.reason).filter fun r => trimSpace r ≠ ""

def terminatedReason (s : ContainerState) : Option String :=
  (s.terminated.map Terminated.reason).filter fun r => trimSpace r ≠ "" && !isCompletedReason r

/-- `reasonsOf`: the waiting reasons and the terminated ones. -/
def reasonsOf (containers : List Container) (statuses : List ContainerStatus) : List String × List String :=
  (containers.filterMap fun c => (byName statuses c.name).bind fun cs => waitingReason cs.state,
    containers.filterMap fun c => (byName statuses c.name).bind fun cs => terminatedReason cs.state)

/-- An init container that holds the pod back. A sidecar that has started does not. -/
def initHolds (statuses : List ContainerStatus) (c : Container) : Bool :=
  (byName statuses c.name).any fun cs =>
    !(restartableInit c && cs.started = some true) &&
      (cs.state.waiting.isSome || cs.state.running.isSome ||
        cs.state.terminated.any fun t => t.exitCode ≠ 0)

def isReady (statuses : List ContainerStatus) (c : Container) : Bool :=
  (byName statuses c.name).any ContainerStatus.ready

def podHealth (p : Pod) : Level × String :=
  let phase := listPhase p
  if p.deletionTimestamp.isSome then (.warn, "Terminating")
  else
    let statusReason := if isCompletedReason (formattedReason p) then "" else formattedReason p
    let (waiting, terminated) := reasonsOf p.containers p.containerStatuses
    let initContainers :=
      if phase = "Succeeded" then p.initContainers.filter fun c => !restartableInit c else p.initContainers
    let (initWaiting, initTerminated) := reasonsOf initContainers p.initContainerStatuses
    let candidates := ([statusReason] ++ initWaiting ++ initTerminated ++ waiting ++ terminated).filter
      fun r => r ≠ "" && !podWarnReasons.contains r
    let r := pickReason candidates podErrorReasons
    if r ≠ "" ∨ phase = "Failed" then (.error, if r = "" then "Failed" else r)
    else
      let sidecars := p.initContainers.filter restartableInit
      let total := p.containers.length + sidecars.length
      let ready := (p.containers.filter (isReady p.containerStatuses)).length +
        (sidecars.filter (isReady p.initContainerStatuses)).length
      let pickWarn (reasons : List String) (other : String) : String :=
        let r := pickReason reasons podWarnReasons
        if r ≠ "" then r else other
      if phase = "Pending" ∨ phase = "Unknown" then (.warn, phase)
      else if phase = "Succeeded" then (.ok, "Succeeded")
      else if p.initContainers.any (initHolds p.initContainerStatuses) = true then
        (.warn, pickWarn initWaiting "PodInitializing")
      else if total > 0 ∧ ready < total then (.warn, pickWarn waiting "NotReady")
      else
        let r := pickReason waiting podWarnReasons
        if r ≠ "" then (.warn, r) else (.ok, phase)

namespace Page

/-- `v?.k`; `none` is `undefined`. -/
def prop (v : Option Value) (k : String) : Option Value := v.bind fun v => v.get k

def truthy : Option Value → Bool
  | none | some .null => false
  | some (.bool b) => b
  | some (.num q) => q ≠ 0
  | some (.str s) => s ≠ ""
  | some (.list _) | some (.map _) => true

/-- `a || b`. -/
def orElse (a : Option Value) (b : Value) : Value := if truthy a then a.getD .null else b

/-- White space and line terminators. -/
def isSpace (c : Char) : Bool :=
  (9 ≤ c.toNat && c.toNat ≤ 13) || (0x2000 ≤ c.toNat && c.toNat ≤ 0x200a) ||
    [0x20, 0xa0, 0x1680, 0x2028, 0x2029, 0x202f, 0x205f, 0x3000, 0xfeff].contains c.toNat

def trim (s : String) : String :=
  String.ofList ((s.toList.dropWhile isSpace).reverse.dropWhile isSpace).reverse

/-- `Array.isArray(v) ? v : []`. -/
def array : Option Value → List Value
  | some (.list items) => items
  | _ => []

def pickReason (reasons : List Value) (priority : List String) : Value :=
  match priority.find? fun p => reasons.contains (.str p) with
  | some p => .str p
  | none => orElse reasons.head? (.str "")

def isCompletedReason (reason : Option Value) : Bool :=
  truthy reason && (reason = some (.str "Completed") || reason = some (.str "Succeeded"))

def errorPriority : List String :=
  ["CrashLoopBackOff", "ImagePullBackOff", "ErrImagePull", "CreateContainerConfigError",
    "CreateContainerError", "RunContainerError", "ContainerCannotRun", "InvalidImageName",
    "ImageInspectError", "RegistryUnavailable", "ErrImageNeverPull", "OOMKilled", "Error"]

def warnPriority : List String := ["ContainerCreating", "PodInitializing", "Pending", "NotReady"]

/-- A reason that is a text and not blank. -/
def reasonText : Option Value → Option Value
  | some (.str s) => if trim s ≠ "" then some (.str s) else none
  | _ => none

def waitingReasons (containers : List Value) : List Value :=
  containers.filterMap fun c => reasonText (prop (prop (prop (some c) "state") "waiting") "reason")

def terminatedReasons (containers : List Value) : List Value :=
  (containers.filterMap fun c => reasonText (prop (prop (prop (some c) "state") "terminated") "reason")).filter
    fun r => !isCompletedReason (some r)

def isSidecar (c : Value) : Bool := prop (some c) "restart_policy" = some (.str "Always")

def holds (c : Value) : Bool :=
  if isSidecar c && truthy (prop (some c) "started") then false
  else
    let state := orElse (prop (some c) "state") (.map [])
    if truthy (state.get "waiting") then true
    else if truthy (state.get "running") then true
    else if truthy (state.get "terminated") then
      match prop (state.get "terminated") "exit_code" with
      | some (.num code) => code ≠ 0
      | _ => true
    else false

structure PodHealth where
  level : Level
  reason : Value
  phase : Value
deriving DecidableEq

def getPodHealth (pod : Value) : PodHealth :=
  let phase := orElse (pod.get "phase") (orElse (pod.get "status") (.str "Unknown"))
  if truthy (pod.get "deletion_timestamp") then ⟨.warn, .str "Terminating", phase⟩
  else
    let containers := array (pod.get "containers")
    let initContainers := array (pod.get "init_containers")
    let statusReason := if isCompletedReason (pod.get "status_reason") then some .null
      else pod.get "status_reason"
    let initReasonsFrom :=
      if phase = .str "Succeeded" then initContainers.filter fun c => !isSidecar c else initContainers
    let reasons := (if truthy statusReason then statusReason.toList else []) ++ waitingReasons initReasonsFrom ++
      terminatedReasons initReasonsFrom ++ waitingReasons containers ++ terminatedReasons containers
    let errorReason := pickReason (reasons.filter fun r => !(warnPriority.map Value.str).contains r) errorPriority
    if truthy (some errorReason) = true ∨ phase = .str "Failed" then
      ⟨.error, orElse (some errorReason) (.str "Failed"), phase⟩
    else
      let counted := containers ++ initContainers.filter isSidecar
      let readyCount := (counted.filter fun c => truthy (prop (some c) "ready")).length
      if phase = .str "Pending" ∨ phase = .str "Unknown" then ⟨.warn, phase, phase⟩
      else if phase = .str "Succeeded" then ⟨.ok, .str "Succeeded", phase⟩
      else if initContainers.any holds = true then
        ⟨.warn, orElse (some (pickReason (waitingReasons initReasonsFrom) warnPriority)) (.str "PodInitializing"),
          phase⟩
      else if counted.length > 0 ∧ readyCount < counted.length then
        ⟨.warn, orElse (some (pickReason (waitingReasons containers) warnPriority)) (.str "NotReady"), phase⟩
      else
        let warnReason := pickReason (waitingReasons containers) warnPriority
        if truthy (some warnReason) then ⟨.warn, warnReason, phase⟩ else ⟨.ok, phase, phase⟩

end Page
end Kubeast.PodRow
