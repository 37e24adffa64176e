import Kubeast.PodRow.Corev1

/-! A pod read out of a watch event's object (`podrow/object.go`). -/
namespace Kubeast.PodRow.Corev1

/-- What an `interface{}` of a decoded object holds. -/
inductive Item
  | null
  | bool (b : Bool)
  | int64 (n : Int64)
  | float64 (q : ℚ)
  | str (s : String)
  | slice (items : List Item)
  | map (members : List (String × Item))

/-- What the reading of an object takes from elsewhere: `time.Parse` of RFC 3339, `resource.ParseQuantity` and
`fmt.Sprint`. -/
structure Parsers (Q : Type) where
  time : String → Option ℤ
  quantity : String → Option Q
  sprint : Item → String

def mapOf : Item → GoMap Item
  | .map ms => some ms
  | _ => none

def listOf : Item → List Item
  | .slice items => items
  | _ => []

def mapsOf (v : Item) : List (List (String × Item)) := (listOf v).filterMap mapOf

/-- `m[k]`. -/
def index (m : List (String × Item)) (k : String) : Item :=
  ((m.find? fun kv => kv.1 = k).map Prod.snd).getD .null

/-- `m[k]` of a map that may be nil. -/
def GoMap.entry (m : GoMap Item) (k : String) : Item := index (m.getD []) k

def str : Item → String
  | .str s => s
  | _ => ""

def stringsOf (v : Item) : List String := (listOf v).map str

def strPtr : Item → Option String
  | .str s => some s
  | _ => none

def boolPtr : Item → Option Bool
  | .bool b => some b
  | _ => none

/-- `b, _ := v.(bool)`. -/
def boolOf (v : Item) : Bool := (boolPtr v).getD false

/-- `int64Of`, none where it is not ok: a floating-point number is cut off towards zero. -/
def int64Ptr : Item → Option Int64
  | .int64 n => some n
  | .float64 q => some (Int64.ofInt (q.num.tdiv q.den))
  | _ => none

def int32Of (v : Item) : Int32 := ((int64Ptr v).getD 0).toInt32

section Readers
variable {Q : Type} (parsers : Parsers Q)

def timeOf : Item → ℤ
  | .str s => (parsers.time s).getD zeroTime
  | _ => zeroTime

def resourcesOf (v : Item) : GoMap Q :=
  (mapOf v).map fun m => m.filterMap fun kv =>
    let text := match kv.2 with
      | .str s => s
      | v => parsers.sprint v
    (parsers.quantity text).map fun q => (kv.1, q)

def portOf (port : List (String × Item)) : ContainerPort :=
  ⟨str (index port "name"), int32Of (index port "containerPort"), str (index port "protocol")⟩

def mountOf (mount : List (String × Item)) : VolumeMount :=
  ⟨str (index mount "name"), str (index mount "mountPath"), boolOf (index mount "readOnly")⟩

/-- The name in a reference. -/
def nameOf (ref : List (String × Item)) : String := str (index ref "name")

def envVarSourceOf (source : List (String × Item)) : EnvVarSource :=
  ⟨(mapOf (index source "configMapKeyRef")).map nameOf, (mapOf (index source "secretKeyRef")).map nameOf⟩

/-- The names an entry refers to; its value stays out. -/
def envVarOf (e : List (String × Item)) : EnvVar where
  name := str (index e "name")
  value := ""
  valueFrom := (mapOf (index e "valueFrom")).map envVarSourceOf

def envSourceOf (ref : List (String × Item)) : EnvSource := ⟨nameOf ref, boolPtr (index ref "optional")⟩

def envFromOf (e : List (String × Item)) : EnvFromSource where
  envPrefix := str (index e "prefix")
  configMapRef := (mapOf (index e "configMapRef")).map envSourceOf
  secretRef := (mapOf (index e "secretRef")).map envSourceOf

def capabilitiesOf (caps : List (String × Item)) : Capabilities :=
  ⟨(listOf (index caps "add")).map str, (listOf (index caps "drop")).map str⟩

def securityContextOf (v : Item) : Option SecurityContext :=
  (mapOf v).map fun m =>
    { runAsUser := int64Ptr (index m "runAsUser")
      runAsGroup := int64Ptr (index m "runAsGroup")
      runAsNonRoot := boolPtr (index m "runAsNonRoot")
      readOnlyRootFilesystem := boolPtr (index m "readOnlyRootFilesystem")
      allowPrivilegeEscalation := boolPtr (index m "allowPrivilegeEscalation")
      privileged := boolPtr (index m "privileged")
      capabilities := (mapOf (index m "capabilities")).map capabilitiesOf }

def containerOf (m : List (String × Item)) : Container Q where
  name := str (index m "name")
  image := str (index m "image")
  ports := (mapsOf (index m "ports")).map portOf
  resources :=
    { limits := resourcesOf parsers ((mapOf (index m "resources")).entry "limits")
      requests := resourcesOf parsers ((mapOf (index m "resources")).entry "requests") }
  volumeMounts := (mapsOf (index m "volumeMounts")).map mountOf
  env := (mapsOf (index m "env")).map envVarOf
  envFrom := (mapsOf (index m "envFrom")).map envFromOf
  securityContext := securityContextOf (index m "securityContext")
  command := stringsOf (index m "command")
  args := stringsOf (index m "args")
  restartPolicy := if str (index m "restartPolicy") ≠ "" then some (str (index m "restartPolicy")) else none

def containersOf (v : Item) : List (Container Q) := (mapsOf v).map (containerOf parsers)

def projectionOf (s : List (String × Item)) : VolumeProjection :=
  ⟨(mapOf (index s "configMap")).map nameOf, (mapOf (index s "secret")).map nameOf⟩

def volumeOf (m : List (String × Item)) : Volume where
  name := str (index m "name")
  configMap := (mapOf (index m "configMap")).map nameOf
  secret := (mapOf (index m "secret")).map fun secret => str (index secret "secretName")
  projected := (mapOf (index m "projected")).map fun projected => (mapsOf (index projected "sources")).map projectionOf

def runningOf (r : List (String × Item)) : Running := ⟨timeOf parsers (index r "startedAt")⟩

def waitingOf (w : List (String × Item)) : Waiting := ⟨str (index w "reason"), str (index w "message")⟩

def terminatedOf (t : List (String × Item)) : Terminated where
  exitCode := int32Of (index t "exitCode")
  signal := int32Of (index t "signal")
  reason := str (index t "reason")
  message := str (index t "message")
  startedAt := timeOf parsers (index t "startedAt")
  finishedAt := timeOf parsers (index t "finishedAt")

def containerStateOf (v : Item) : ContainerState where
  waiting := (mapOf ((mapOf v).entry "waiting")).map waitingOf
  running := (mapOf ((mapOf v).entry "running")).map (runningOf parsers)
  terminated := (mapOf ((mapOf v).entry "terminated")).map (terminatedOf parsers)

def containerStatusOf (m : List (String × Item)) : ContainerStatus where
  name := str (index m "name")
  ready := boolOf (index m "ready")
  started := boolPtr (index m "started")
  restartCount := int32Of (index m "restartCount")
  state := containerStateOf parsers (index m "state")
  lastTerminationState := containerStateOf parsers (index m "lastState")

def containerStatusesOf (v : Item) : List ContainerStatus := (mapsOf v).map (containerStatusOf parsers)

def ownerOf (r : List (String × Item)) : OwnerReference :=
  ⟨str (index r "kind"), str (index r "name"), str (index r "uid"), boolPtr (index r "controller")⟩

def claimOf (c : List (String × Item)) : PodResourceClaim :=
  ⟨str (index c "name"), strPtr (index c "resourceClaimName"), strPtr (index c "resourceClaimTemplateName")⟩

def conditionOf (c : List (String × Item)) : Condition :=
  ⟨str (index c "type"), str (index c "status"), str (index c "reason")⟩

def labelsOf (v : Item) : GoMap String := (mapOf v).map fun labels => labels.map fun kv => (kv.1, str kv.2)

/-- `FromObject`. -/
def fromObject (o : GoMap Item) : Pod Q :=
  let metadata := mapOf (o.entry "metadata")
  let spec := mapOf (o.entry "spec")
  let status := mapOf (o.entry "status")
  let deletion := timeOf parsers (metadata.entry "deletionTimestamp")
  { name := str (metadata.entry "name")
    ns := str (metadata.entry "namespace")
    creationTimestamp := timeOf parsers (metadata.entry "creationTimestamp")
    deletionTimestamp := if deletion ≠ zeroTime then some deletion else none
    labels := labelsOf (metadata.entry "labels")
    ownerReferences := (mapsOf (metadata.entry "ownerReferences")).map ownerOf
    nodeName := str (spec.entry "nodeName")
    serviceAccountName := str (spec.entry "serviceAccountName")
    priorityClassName := str (spec.entry "priorityClassName")
    runtimeClassName := strPtr (spec.entry "runtimeClassName")
    containers := containersOf parsers (spec.entry "containers")
    initContainers := containersOf parsers (spec.entry "initContainers")
    volumes := (mapsOf (spec.entry "volumes")).map volumeOf
    imagePullSecrets := (mapsOf (spec.entry "imagePullSecrets")).map nameOf
    resourceClaims := (mapsOf (spec.entry "resourceClaims")).map claimOf
    phase := str (status.entry "phase")
    reason := str (status.entry "reason")
    message := str (status.entry "message")
    podIP := str (status.entry "podIP")
    conditions := (mapsOf (status.entry "conditions")).map conditionOf
    containerStatuses := containerStatusesOf parsers (status.entry "containerStatuses")
    initContainerStatuses := containerStatusesOf parsers (status.entry "initContainerStatuses") }

end Readers
end Kubeast.PodRow.Corev1
