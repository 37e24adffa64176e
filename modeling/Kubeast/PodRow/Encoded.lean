import Kubeast.PodRow.Object

/-! The object a pod is encoded to, and what is read back of it. -/
namespace Kubeast.PodRow.Corev1
open AuditChain

section Fields

/-- The members of an object: the fields that are not left out. -/
def object (fields : List (String × Option Item)) : List (String × Item) :=
  fields.filterMap fun f => f.2.map fun v => (f.1, v)

def strField (s : String) : Option Item := if s = "" then none else some (.str s)

def boolField (b : Bool) : Option Item := if b then some (.bool b) else none

def int32Item (n : Int32) : Item := .int64 n.toInt64

def int32Field (n : Int32) : Option Item := if n = 0 then none else some (int32Item n)

/-- A time that is not written is null. -/
def timeItem (t : ℤ) : Item := if t = zeroTime then .null else .str (rfc3339 t)

def sliceField {α : Type} (item : α → Item) (l : List α) : Option Item :=
  if l.isEmpty then none else some (.slice (l.map item))

/-- A map that is nil or empty is left out. -/
def mapField {α : Type} (item : α → Item) (m : GoMap α) : Option Item :=
  match m with
  | none | some [] => none
  | some ms => some (.map (ms.map fun kv => (kv.1, item kv.2)))

end Fields

section Encode
variable {Q : Type} (quantity : Q → String)

def portFields (port : ContainerPort) : List (String × Item) :=
  object [("name", strField port.name), ("containerPort", some (int32Item port.containerPort)),
    ("protocol", strField port.protocol)]

def resourcesFields (r : ResourceRequirements Q) : List (String × Item) :=
  object [("limits", mapField (fun q => .str (quantity q)) r.limits),
    ("requests", mapField (fun q => .str (quantity q)) r.requests)]

def mountFields (vm : VolumeMount) : List (String × Item) :=
  object [("name", some (.str vm.name)), ("readOnly", boolField vm.readOnly), ("mountPath", some (.str vm.mountPath))]

/-- A reference by name. -/
def nameFields (key name : String) : List (String × Item) := object [(key, strField name)]

def envVarSourceFields (source : EnvVarSource) : List (String × Item) :=
  object [("configMapKeyRef", source.configMapKeyRef.map fun s => .map (nameFields "name" s)),
    ("secretKeyRef", source.secretKeyRef.map fun s => .map (nameFields "name" s))]

def envVarFields (e : EnvVar) : List (String × Item) :=
  object [("name", some (.str e.name)), ("value", strField e.value),
    ("valueFrom", e.valueFrom.map fun source => .map (envVarSourceFields source))]

def envSourceFields (r : EnvSource) : List (String × Item) :=
  object [("name", strField r.name), ("optional", r.optional.map .bool)]

def envFromFields (ef : EnvFromSource) : List (String × Item) :=
  object [("prefix", strField ef.envPrefix), ("configMapRef", ef.configMapRef.map fun r => .map (envSourceFields r)),
    ("secretRef", ef.secretRef.map fun r => .map (envSourceFields r))]

def capabilitiesFields (c : Capabilities) : List (String × Item) :=
  object [("add", sliceField .str c.add), ("drop", sliceField .str c.drop)]

def securityContextFields (c : SecurityContext) : List (String × Item) :=
  object [("capabilities", c.capabilities.map fun caps => .map (capabilitiesFields caps)),
    ("privileged", c.privileged.map .bool), ("runAsUser", c.runAsUser.map .int64),
    ("runAsGroup", c.runAsGroup.map .int64), ("runAsNonRoot", c.runAsNonRoot.map .bool),
    ("readOnlyRootFilesystem", c.readOnlyRootFilesystem.map .bool),
    ("allowPrivilegeEscalation", c.allowPrivilegeEscalation.map .bool)]

def containerFields (c : Container Q) : List (String × Item) :=
  object [("name", some (.str c.name)), ("image", strField c.image), ("command", sliceField .str c.command),
    ("args", sliceField .str c.args), ("ports", sliceField (fun port => .map (portFields port)) c.ports),
    ("envFrom", sliceField (fun e => .map (envFromFields e)) c.envFrom),
    ("env", sliceField (fun e => .map (envVarFields e)) c.env),
    ("resources", some (.map (resourcesFields quantity c.resources))),
    ("restartPolicy", c.restartPolicy.map .str),
    ("volumeMounts", sliceField (fun vm => .map (mountFields vm)) c.volumeMounts),
    ("securityContext", c.securityContext.map fun sc => .map (securityContextFields sc))]

def projectionFields (src : VolumeProjection) : List (String × Item) :=
  object [("secret", src.secret.map fun s => .map (nameFields "name" s)),
    ("configMap", src.configMap.map fun s => .map (nameFields "name" s))]

def projectedFields (sources : List VolumeProjection) : List (String × Item) :=
  object [("sources", sliceField (fun src => .map (projectionFields src)) sources)]

def volumeFields (v : Volume) : List (String × Item) :=
  object [("name", some (.str v.name)), ("secret", v.secret.map fun s => .map (nameFields "secretName" s)),
    ("configMap", v.configMap.map fun s => .map (nameFields "name" s)),
    ("projected", v.projected.map fun sources => .map (projectedFields sources))]

def runningFields (r : Running) : List (String × Item) := object [("startedAt", some (timeItem r.startedAt))]

def waitingFields (w : Waiting) : List (String × Item) :=
  object [("reason", strField w.reason), ("message", strField w.message)]

def terminatedFields (t : Terminated) : List (String × Item) :=
  object [("exitCode", some (int32Item t.exitCode)), ("signal", int32Field t.signal), ("reason", strField t.reason),
    ("message", strField t.message), ("startedAt", some (timeItem t.startedAt)),
    ("finishedAt", some (timeItem t.finishedAt))]

def stateFields (s : ContainerState) : List (String × Item) :=
  object [("waiting", s.waiting.map fun w => .map (waitingFields w)),
    ("running", s.running.map fun r => .map (runningFields r)),
    ("terminated", s.terminated.map fun t => .map (terminatedFields t))]

def statusFields (cs : ContainerStatus) : List (String × Item) :=
  object [("name", some (.str cs.name)), ("state", some (.map (stateFields cs.state))),
    ("lastState", some (.map (stateFields cs.lastTerminationState))), ("ready", some (.bool cs.ready)),
    ("restartCount", some (int32Item cs.restartCount)), ("started", cs.started.map .bool)]

def ownerFields (r : OwnerReference) : List (String × Item) :=
  object [("kind", some (.str r.kind)), ("name", some (.str r.name)), ("uid", some (.str r.uid)),
    ("controller", r.controller.map .bool)]

def claimFields (rc : PodResourceClaim) : List (String × Item) :=
  object [("name", some (.str rc.name)), ("resourceClaimName", rc.resourceClaimName.map .str),
    ("resourceClaimTemplateName", rc.resourceClaimTemplateName.map .str)]

def conditionFields (c : Condition) : List (String × Item) :=
  object [("type", some (.str c.kind)), ("status", some (.str c.status)), ("reason", strField c.reason)]

def metadataFields (p : Pod Q) : List (String × Item) :=
  object [("name", strField p.name), ("namespace", strField p.ns),
    ("creationTimestamp", some (timeItem p.creationTimestamp)), ("deletionTimestamp", p.deletionTimestamp.map timeItem),
    ("labels", mapField .str p.labels),
    ("ownerReferences", sliceField (fun r => .map (ownerFields r)) p.ownerReferences)]

def specFields (p : Pod Q) : List (String × Item) :=
  object [("volumes", sliceField (fun v => .map (volumeFields v)) p.volumes),
    ("initContainers", sliceField (fun c => .map (containerFields quantity c)) p.initContainers),
    ("containers", sliceField (fun c => .map (containerFields quantity c)) p.containers),
    ("serviceAccountName", strField p.serviceAccountName), ("nodeName", strField p.nodeName),
    ("imagePullSecrets", sliceField (fun s => .map (nameFields "name" s)) p.imagePullSecrets),
    ("priorityClassName", strField p.priorityClassName), ("runtimeClassName", p.runtimeClassName.map .str),
    ("resourceClaims", sliceField (fun rc => .map (claimFields rc)) p.resourceClaims)]

def podStatusFields (p : Pod Q) : List (String × Item) :=
  object [("phase", strField p.phase), ("conditions", sliceField (fun c => .map (conditionFields c)) p.conditions),
    ("message", strField p.message), ("reason", strField p.reason), ("podIP", strField p.podIP),
    ("initContainerStatuses", sliceField (fun cs => .map (statusFields cs)) p.initContainerStatuses),
    ("containerStatuses", sliceField (fun cs => .map (statusFields cs)) p.containerStatuses)]

/-- The object of a pod, by the JSON names of its fields and what they leave out where it is empty. -/
def encode (p : Pod Q) : List (String × Item) :=
  object [("metadata", some (.map (metadataFields p))), ("spec", some (.map (specFields quantity p))),
    ("status", some (.map (podStatusFields p)))]

end Encode

section Carried
variable {Q : Type}

/-- A map that is empty does not go into the object, nor come back out of it. -/
def GoMap.filled {α : Type} : GoMap α → GoMap α
  | some [] => none
  | m => m

def EnvVar.carried (e : EnvVar) : EnvVar := { e with value := "" }

def Container.carried (c : Container Q) : Container Q :=
  { c with
    resources := ⟨c.resources.limits.filled, c.resources.requests.filled⟩
    env := c.env.map EnvVar.carried
    restartPolicy := c.restartPolicy.filter fun s => s ≠ "" }

/-- What of a pod its object carries to its row. -/
def Pod.carried (p : Pod Q) : Pod Q :=
  { p with
    deletionTimestamp := p.deletionTimestamp.filter fun t => t ≠ zeroTime
    labels := p.labels.filled
    containers := p.containers.map Container.carried
    initContainers := p.initContainers.map Container.carried }

def ContainerState.times (s : ContainerState) : List ℤ :=
  (s.running.map Running.startedAt).toList ++ s.terminated.toList.flatMap fun t => [t.startedAt, t.finishedAt]

def ContainerStatus.times (cs : ContainerStatus) : List ℤ := cs.state.times ++ cs.lastTerminationState.times

def Pod.times (p : Pod Q) : List ℤ :=
  p.creationTimestamp :: (p.deletionTimestamp.toList ++ p.containerStatuses.flatMap ContainerStatus.times ++
    p.initContainerStatuses.flatMap ContainerStatus.times)

/-- The text of a time is read as that time. -/
def Parsers.ReadsTime (parsers : Parsers Q) (t : ℤ) : Prop := t ≠ zeroTime → parsers.time (rfc3339 t) = some t

end Carried

section ReadBack
variable {Q : Type} {parsers : Parsers Q} {quantity : Q → String} {k k' : String} {v : Option Item}
  {fields : List (String × Option Item)}

@[simp] theorem index_object_nil : index (object []) k = .null := rfl

@[simp] theorem index_object_cons : index (object ((k', v) :: fields)) k =
    if k' = k then v.getD (index (object fields) k) else index (object fields) k := by
  cases v with
  | none => simp [object]
  | some v =>
    have hcons : object ((k', some v) :: fields) = (k', v) :: object fields := rfl
    rw [hcons, index, List.find?_cons]
    by_cases h : k' = k <;> simp [h, index]

@[simp] theorem str_strField (s : String) : str ((strField s).getD .null) = s := by
  by_cases h : s = "" <;> simp [strField, h, str]

@[simp] theorem boolOf_boolField (b : Bool) : boolOf ((boolField b).getD .null) = b := by cases b <;> rfl

@[simp] theorem int32Of_item (n : Int32) : int32Of (int32Item n) = n := by simp [int32Of, int32Item, int64Ptr]

@[simp] theorem int32Of_field (n : Int32) : int32Of ((int32Field n).getD .null) = n := by
  unfold int32Field
  split_ifs with h
  · rw [h]
    rfl
  · exact int32Of_item n

@[simp] theorem boolPtr_map (b : Option Bool) : boolPtr ((b.map Item.bool).getD .null) = b := by cases b <;> rfl

@[simp] theorem int64Ptr_map (n : Option Int64) : int64Ptr ((n.map Item.int64).getD .null) = n := by cases n <;> rfl

@[simp] theorem strPtr_map (s : Option String) : strPtr ((s.map Item.str).getD .null) = s := by cases s <;> rfl

@[simp] theorem str_str (s : String) : str (.str s) = s := rfl

@[simp] theorem boolOf_bool (b : Bool) : boolOf (.bool b) = b := rfl

@[simp] theorem mapOf_map (m : List (String × Item)) : mapOf (.map m) = some m := rfl

theorem mapOf_field {α : Type} (f : α → List (String × Item)) (o : Option α) :
    mapOf ((o.map fun a => Item.map (f a)).getD .null) = o.map f := by
  cases o <;> rfl

theorem mapOf_ref {α : Type} {f : α → List (String × Item)} {g : List (String × Item) → α}
    (h : ∀ a, g (f a) = a) (o : Option α) : (mapOf ((o.map fun a => Item.map (f a)).getD .null)).map g = o := by
  have hcomp : g ∘ f = id := funext h
  rw [mapOf_field, Option.map_map, hcomp, Option.map_id]
  rfl

@[simp] theorem listOf_sliceField {α : Type} (item : α → Item) (l : List α) :
    listOf ((sliceField item l).getD .null) = l.map item := by
  cases l <;> rfl

@[simp] theorem mapsOf_sliceField {α : Type} (f : α → List (String × Item)) (l : List α) :
    mapsOf ((sliceField (fun a => .map (f a)) l).getD .null) = l.map f := by
  rw [mapsOf, listOf_sliceField, List.filterMap_map]
  exact congrFun (@List.filterMap_eq_map _ _ f) l

theorem map_read {α : Type} {f : α → List (String × Item)} {g : List (String × Item) → α} {l : List α}
    (h : ∀ a ∈ l, g (f a) = a) : (mapsOf ((sliceField (fun a => .map (f a)) l).getD .null)).map g = l := by
  rw [mapsOf_sliceField, List.map_map]
  exact (List.map_congr_left h).trans (List.map_id l)

@[simp] theorem strings_read (l : List String) : stringsOf ((sliceField .str l).getD .null) = l := by
  rw [stringsOf, listOf_sliceField, List.map_map]
  exact List.map_id l

theorem portOf_fields (port : ContainerPort) : portOf (portFields port) = port := by
  simp [portOf, portFields]

theorem mountOf_fields (vm : VolumeMount) : mountOf (mountFields vm) = vm := by
  simp [mountOf, mountFields]

theorem nameOf_fields (s : String) : nameOf (nameFields "name" s) = s := by
  simp [nameOf, nameFields]

theorem envVarSourceOf_fields (source : EnvVarSource) : envVarSourceOf (envVarSourceFields source) = source := by
  simp [envVarSourceOf, envVarSourceFields, mapOf_ref nameOf_fields]

theorem envVarOf_fields (e : EnvVar) : envVarOf (envVarFields e) = e.carried := by
  simp [envVarOf, envVarFields, EnvVar.carried, mapOf_ref envVarSourceOf_fields]

theorem envSourceOf_fields (r : EnvSource) : envSourceOf (envSourceFields r) = r := by
  simp [envSourceOf, envSourceFields, nameOf]

theorem envFromOf_fields (ef : EnvFromSource) : envFromOf (envFromFields ef) = ef := by
  simp [envFromOf, envFromFields, mapOf_ref envSourceOf_fields]

theorem capabilitiesOf_fields (c : Capabilities) : capabilitiesOf (capabilitiesFields c) = c := by
  have hstrs (l : List String) : (l.map Item.str).map str = l := by
    rw [List.map_map]
    exact List.map_id l
  simp [capabilitiesOf, capabilitiesFields, hstrs]

theorem securityContextOf_fields (c : Option SecurityContext) :
    securityContextOf ((c.map fun sc => Item.map (securityContextFields sc)).getD .null) = c := by
  refine mapOf_ref (fun sc => ?_) c
  simp [securityContextFields, mapOf_ref capabilitiesOf_fields]

theorem resourcesOf_field (hquantities : ∀ q, parsers.quantity (quantity q) = some q) (m : GoMap Q) :
    resourcesOf parsers ((mapField (fun q => .str (quantity q)) m).getD .null) = m.filled := by
  have hread : ∀ ms : List (String × Q),
      resourcesOf parsers (.map (ms.map fun kv => (kv.1, .str (quantity kv.2)))) = some ms := by
    intro ms
    rw [resourcesOf, mapOf_map, Option.map_some, List.filterMap_map]
    simp [hquantities]
  rcases m with _ | _ | ⟨kv, m⟩
  · rfl
  · rfl
  · exact hread (kv :: m)

theorem labelsOf_field (m : GoMap String) : labelsOf ((mapField .str m).getD .null) = m.filled := by
  have hread : ∀ ms : List (String × String), labelsOf (.map (ms.map fun kv => (kv.1, .str kv.2))) = some ms := by
    intro ms
    rw [labelsOf, mapOf_map, Option.map_some, List.map_map]
    exact congrArg some (List.map_id ms)
  rcases m with _ | _ | ⟨kv, m⟩
  · rfl
  · rfl
  · exact hread (kv :: m)

theorem containerOf_fields (hquantities : ∀ q, parsers.quantity (quantity q) = some q) (c : Container Q) :
    containerOf parsers (containerFields quantity c) = c.carried := by
  have hpolicy : (if str ((c.restartPolicy.map Item.str).getD .null) ≠ "" then
      some (str ((c.restartPolicy.map Item.str).getD .null)) else none) = c.restartPolicy.filter fun s => s ≠ "" := by
    cases c.restartPolicy with
    | none => rfl
    | some s => by_cases h : s = "" <;> simp [h, Option.filter]
  have hports := map_read (l := c.ports) fun port _ => portOf_fields port
  have hmounts := map_read (l := c.volumeMounts) fun vm _ => mountOf_fields vm
  have henvFrom := map_read (l := c.envFrom) fun e _ => envFromOf_fields e
  have henv : ((c.env.map envVarFields).map envVarOf) = c.env.map EnvVar.carried := by
    rw [List.map_map]
    exact List.map_congr_left fun e _ => envVarOf_fields e
  simp only [mapsOf_sliceField] at hports hmounts henvFrom
  simp [containerOf, containerFields, Container.carried, GoMap.entry, resourcesFields, resourcesOf_field hquantities,
    securityContextOf_fields, hpolicy, hports, hmounts, henvFrom, henv]

theorem projectionOf_fields (src : VolumeProjection) : projectionOf (projectionFields src) = src := by
  simp [projectionOf, projectionFields, mapOf_ref nameOf_fields]

theorem volumeOf_fields (v : Volume) : volumeOf (volumeFields v) = v := by
  have hsecret (s : String) : str (index (nameFields "secretName" s) "secretName") = s := by simp [nameFields]
  have hprojected (sources : List VolumeProjection) :
      (mapsOf (index (projectedFields sources) "sources")).map projectionOf = sources := by
    have hread := map_read (l := sources) fun src _ => projectionOf_fields src
    simpa [projectedFields] using hread
  simp [volumeOf, volumeFields, mapOf_ref nameOf_fields, mapOf_ref (g := fun m => str (index m "secretName")) hsecret,
    mapOf_ref (g := fun m => (mapsOf (index m "sources")).map projectionOf) hprojected]

section Times
variable {t : ℤ}

theorem timeOf_item (h : parsers.ReadsTime t) : timeOf parsers (timeItem t) = t := by
  unfold timeItem
  split_ifs with hzero
  · exact hzero.symm
  · rw [timeOf, h hzero]
    rfl

theorem stateOf_fields {s : ContainerState} (h : ∀ t ∈ s.times, parsers.ReadsTime t) :
    containerStateOf parsers (.map (stateFields s)) = s := by
  obtain ⟨waiting, running, terminated⟩ := s
  have hwaiting : (waiting.map waitingFields).map waitingOf = waiting := by
    cases waiting with
    | none => rfl
    | some w => simp [waitingOf, waitingFields]
  have hrunning : (running.map runningFields).map (runningOf parsers) = running := by
    cases running with
    | none => rfl
    | some r =>
      have hstarted := timeOf_item (h r.startedAt (by simp [ContainerState.times]))
      simp [runningOf, runningFields, hstarted]
  have hterminated : (terminated.map terminatedFields).map (terminatedOf parsers) = terminated := by
    cases terminated with
    | none => rfl
    | some t =>
      have hstarted := timeOf_item (h t.startedAt (by simp [ContainerState.times]))
      have hfinished := timeOf_item (h t.finishedAt (by simp [ContainerState.times]))
      simp [terminatedOf, terminatedFields, hstarted, hfinished]
  simp [containerStateOf, stateFields, GoMap.entry, mapOf_field, hwaiting, hrunning, hterminated]

theorem statusOf_fields {cs : ContainerStatus} (h : ∀ t ∈ cs.times, parsers.ReadsTime t) :
    containerStatusOf parsers (statusFields cs) = cs := by
  have hstate := stateOf_fields fun t ht => h t (List.mem_append_left _ ht)
  have hlast := stateOf_fields fun t ht => h t (List.mem_append_right _ ht)
  simp [containerStatusOf, statusFields, hstate, hlast, int32Of_item]

end Times

theorem ownerOf_fields (r : OwnerReference) : ownerOf (ownerFields r) = r := by simp [ownerOf, ownerFields]

theorem claimOf_fields (rc : PodResourceClaim) : claimOf (claimFields rc) = rc := by simp [claimOf, claimFields]

theorem conditionOf_fields (c : Condition) : conditionOf (conditionFields c) = c := by
  simp [conditionOf, conditionFields]

/-- A pod comes back out of its object as far as its row goes. -/
theorem fromObject_encode (hquantities : ∀ q, parsers.quantity (quantity q) = some q) {p : Pod Q}
    (htimes : ∀ t ∈ p.times, parsers.ReadsTime t) : fromObject parsers (some (encode quantity p)) = p.carried := by
  have hcreation := timeOf_item (htimes p.creationTimestamp List.mem_cons_self)
  have hdeletion : (if timeOf parsers ((p.deletionTimestamp.map timeItem).getD .null) ≠ zeroTime then
      some (timeOf parsers ((p.deletionTimestamp.map timeItem).getD .null)) else none) =
        p.deletionTimestamp.filter fun t => t ≠ zeroTime := by
    cases hp : p.deletionTimestamp with
    | none => rfl
    | some t =>
      have hread := timeOf_item (htimes t (by simp [Pod.times, hp]))
      rw [Option.map_some, Option.getD_some, hread]
      by_cases h : t = zeroTime <;> simp [h, Option.filter]
  have hcontainers (l : List (Container Q)) :
      (l.map (containerFields quantity)).map (containerOf parsers) = l.map Container.carried := by
    rw [List.map_map]
    exact List.map_congr_left fun c _ => containerOf_fields hquantities c
  have hstatuses := map_read (l := p.containerStatuses) fun cs hcs =>
    statusOf_fields fun t ht => htimes t <| List.mem_cons_of_mem _ <| List.mem_append_left _ <|
      List.mem_append_right _ (List.mem_flatMap.mpr ⟨cs, hcs, ht⟩)
  have hinits := map_read (l := p.initContainerStatuses) fun cs hcs =>
    statusOf_fields fun t ht => htimes t <| List.mem_cons_of_mem _ <|
      List.mem_append_right _ (List.mem_flatMap.mpr ⟨cs, hcs, ht⟩)
  have howners := map_read (l := p.ownerReferences) fun r _ => ownerOf_fields r
  have hvolumes := map_read (l := p.volumes) fun v _ => volumeOf_fields v
  have hsecrets := map_read (l := p.imagePullSecrets) fun s _ => nameOf_fields s
  have hclaims := map_read (l := p.resourceClaims) fun rc _ => claimOf_fields rc
  have hconditions := map_read (l := p.conditions) fun c _ => conditionOf_fields c
  simp only [mapsOf_sliceField] at hstatuses hinits howners hvolumes hsecrets hclaims hconditions
  simp [fromObject, encode, metadataFields, specFields, podStatusFields, GoMap.entry, Pod.carried, containersOf,
    containerStatusesOf, labelsOf_field, hcreation, hdeletion, hcontainers, hstatuses, hinits, howners, hvolumes,
    hsecrets, hclaims, hconditions]

end ReadBack
end Kubeast.PodRow.Corev1
