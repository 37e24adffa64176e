import Kubeast.PodRow.Encoded

/-! A live update of the list shows the row the list shows. -/
namespace Kubeast.PodRow.Corev1

section Ends
variable {Q : Type} {quantity : Q → String} {statuses : List ContainerStatus}

/-- The row of an init container. -/
def initRow (statuses : List ContainerStatus) (c : Container Q) : Value :=
  .map ([("name", .str c.name), ("image", .str c.image)] ++
    (if restartableInit c then [("restart_policy", .str "Always")] else []) ++
    match statuses.find? fun cs => cs.name = c.name with
    | some cs =>
        [("ready", .bool cs.ready), ("restart_count", .num cs.restartCount.toInt),
            ("state", containerState cs.state.view)] ++
          if restartableInit c then opt "started" (cs.started.map .bool) else []
    | none => [])

theorem policyEntry_eq (c : Container Q) :
    policyEntry c = .ok (if restartableInit c then [("restart_policy", .str "Always")] else []) := by
  unfold policyEntry
  by_cases h : restartableInit c = true
  · have halways : c.restartPolicy = some "Always" := by simpa [restartableInit] using h
    rw [if_pos h, if_pos h, halways]
    rfl
  · rw [if_neg h, if_neg h]

theorem startedEntry_eq (c : Container Q) (cs : ContainerStatus) :
    startedEntry c cs = .ok (if restartableInit c then opt "started" (cs.started.map .bool) else []) := by
  unfold startedEntry
  cases restartableInit c <;> cases cs.started <;> rfl

theorem initContainerRow_eq (c : Container Q) : initContainerRow statuses c = .ok (initRow statuses c) := by
  rw [initContainerRow, policyEntry_eq, statusEntries, initRow]
  cases statuses.find? fun cs => cs.name = c.name with
  | none => rfl
  | some cs =>
    dsimp only
    rw [startedEntry_eq]
    rfl

theorem mapM_ok {α β ε : Type} {f : α → Except ε β} {g : α → β} (h : ∀ a, f a = .ok (g a)) (l : List α) :
    l.mapM f = .ok (l.map g) := by
  induction l with
  | nil => rfl
  | cons a l ih =>
    rw [List.mapM_cons, h a, ih]
    rfl

theorem info_eq (p : Pod Q) : info quantity p =
    .ok (.map (members quantity p (p.initContainers.map (initRow p.initContainerStatuses)))) := by
  rw [info, mapM_ok initContainerRow_eq]
  rfl

end Ends

section Carried
variable {Q : Type} {quantity : Q → String} {p : Pod Q} {c : Container Q}

theorem restartableInit_carried (c : Container Q) : restartableInit c.carried = restartableInit c := by
  unfold restartableInit Container.carried
  cases c.restartPolicy with
  | none => rfl
  | some policy => by_cases h : policy = "" <;> simp [h, Option.filter]

theorem view_carried (c : Container Q) : c.carried.view = c.view := by
  rw [Container.view, restartableInit_carried]
  rfl

theorem initRow_carried (statuses : List ContainerStatus) (c : Container Q) :
    initRow statuses c.carried = initRow statuses c := by
  rw [initRow, restartableInit_carried]
  rfl

theorem specOf_carried (p : Pod Q) (name : String) : specOf p.carried name = (specOf p name).map Container.carried := by
  have hfilter : (p.initContainers.map Container.carried).filter (fun c => c.name = name) =
      (p.initContainers.filter fun c => c.name = name).map Container.carried := List.filter_map ..
  rw [specOf, specOf, ← List.getLast?_map, ← hfilter]
  rfl

theorem initCounts_carried (p : Pod Q) (v : InitCounts) (statuses : List ContainerStatus) :
    initCounts p.carried v statuses = initCounts p v statuses := by
  induction statuses generalizing v with
  | nil => rfl
  | cons cs rest ih =>
    have hsidecar : (specOf p.carried cs.name).any restartableInit = (specOf p cs.name).any restartableInit := by
      rw [specOf_carried, Option.any_map]
      exact congrArg (fun f => (specOf p cs.name).any f) (funext restartableInit_carried)
    rw [initCounts, initCounts, hsidecar]
    simp only [ih]

theorem counts_carried (h : p.carried.view = p.view) : counts p.carried = counts p := by
  have hsidecars : (p.carried.initContainers.filter restartableInit).length =
      (p.initContainers.filter restartableInit).length := by
    have hcomp : restartableInit ∘ Container.carried = restartableInit (Q := Q) := funext restartableInit_carried
    show ((p.initContainers.map Container.carried).filter restartableInit).length = _
    rw [List.filter_map, List.length_map, hcomp]
  have hcontainers : p.carried.containers.length = p.containers.length := List.length_map _
  unfold counts
  rw [h, initCounts_carried, hsidecars, hcontainers]
  rfl

theorem references_carried (volume : Volume → Option String) (source : VolumeProjection → Option String)
    (whole : EnvFromSource → Option EnvSource) (key : EnvVarSource → Option String) (p : Pod Q) :
    references volume source whole key p.carried = references volume source whole key p := by
  have henv (c : Container Q) : (c.carried.env.flatMap fun env => named (env.valueFrom.bind key)) =
      c.env.flatMap fun env => named (env.valueFrom.bind key) := List.flatMap_map ..
  have hcontainers : (p.containers.map Container.carried ++ p.initContainers.map Container.carried) =
      (p.containers ++ p.initContainers).map Container.carried := (List.map_append).symm
  unfold references
  show _ ++ (p.containers.map Container.carried ++ p.initContainers.map Container.carried).flatMap _ = _
  rw [hcontainers, List.flatMap_map]
  simp only [henv]
  rfl

/-- What a pod's object leaves out does not bear on its row. -/
structure Pod.Kept (p : Pod Q) : Prop where
  deletion : p.deletionTimestamp ≠ some zeroTime
  labels : p.labels ≠ some []
  resources : ∀ c ∈ p.containers, c.resources.limits ≠ some [] ∧ c.resources.requests ≠ some []

theorem filled_eq {α : Type} {m : GoMap α} (h : m ≠ some []) : m.filled = m := by
  rcases m with _ | _ | ⟨kv, m⟩
  · rfl
  · exact absurd rfl h
  · rfl

theorem containerRow_carried {statuses : List ContainerStatus} (hlimits : c.resources.limits ≠ some [])
    (hrequests : c.resources.requests ≠ some []) :
    containerRow quantity statuses c.carried = containerRow quantity statuses c := by
  have hresources : c.carried.resources = c.resources := by
    show ResourceRequirements.mk _ _ = _
    rw [filled_eq hlimits, filled_eq hrequests]
  have henv : c.carried.env.length = c.env.length := List.length_map _
  rw [containerRow, hresources, henv]
  rfl

theorem members_carried (h : p.Kept) (rows : List Value) :
    members quantity p.carried rows = members quantity p rows := by
  have hdeletion : p.carried.deletionTimestamp = p.deletionTimestamp := by
    show p.deletionTimestamp.filter _ = _
    cases hp : p.deletionTimestamp with
    | none => rfl
    | some t =>
      have hne : t ≠ zeroTime := fun ht => h.deletion (hp.trans (congrArg some ht))
      simp [Option.filter, hne]
  have hlabels : p.carried.labels = p.labels := filled_eq h.labels
  have hview : p.carried.view = p.view := by
    have hcontainers (l : List (Container Q)) :
        (l.map Container.carried).map Container.view = l.map Container.view := by
      rw [List.map_map]
      exact List.map_congr_left fun c _ => view_carried c
    unfold Pod.view
    rw [hdeletion]
    show PodRow.Pod.mk _ ((p.initContainers.map _).map _) ((p.containers.map _).map _) _ _ _ _ _ _ = _
    rw [hcontainers, hcontainers]
    rfl
  have hrows : p.carried.containers.map (containerRow quantity p.carried.containerStatuses) =
      p.containers.map (containerRow quantity p.containerStatuses) := by
    show (p.containers.map Container.carried).map _ = _
    rw [List.map_map]
    refine List.map_congr_left fun c hc => ?_
    obtain ⟨hlimits, hrequests⟩ := h.resources c hc
    exact containerRow_carried hlimits hrequests
  have hmaps : configMaps p.carried = configMaps p := references_carried _ _ _ _ p
  have hsecrets : secrets p.carried = secrets p := by
    rw [secrets, references_carried]
    rfl
  unfold members
  rw [hview, counts_carried hview, hrows, hmaps, hsecrets, hlabels, hdeletion]
  rfl

theorem get_opt (key k : String) (v : Option Value) : (Value.map (opt key v)).get k = if key = k then v else none := by
  cases v with
  | none => simp [opt]
  | some v => simp [opt, Value.get_cons]

theorem get_deletion (p : Pod Q) (rows : List Value) : (Value.map (members quantity p rows)).get "deletion_timestamp" =
    p.deletionTimestamp.map fun t => .str (iso t) := by
  simp [members, Value.get_append, Value.get_cons, get_opt]

theorem get_resources (r : ResourceRequirements Q) :
    (resourcesRow quantity r).get "limits" = r.limits.map (quantities quantity) ∧
      (resourcesRow quantity r).get "requests" = r.requests.map (quantities quantity) := by
  simp [resourcesRow, Value.get_append, get_opt]

theorem ne_of_map_filled {α β : Type} {f : List (String × α) → β} {m : GoMap α} (h : m.filled.map f = m.map f) :
    m ≠ some [] := by
  rintro rfl
  cases h

theorem kept_of_info (h : info quantity p.carried = info quantity p) : p.Kept := by
  rw [info_eq, info_eq] at h
  have hrow := Except.ok.inj h
  have hget (k : String) := congrArg (fun row => Value.get row k) hrow
  constructor
  · intro hzero
    have hdeletion := hget "deletion_timestamp"
    simp only [get_deletion] at hdeletion
    simp [Pod.carried, hzero, Option.filter] at hdeletion
  · intro hnone
    have hlabels : some (labelsRow p.carried.labels) = some (labelsRow p.labels) := hget "labels"
    simp [Pod.carried, hnone, GoMap.filled, labelsRow] at hlabels
  · intro c hc
    have hcontainers : some (Value.list (p.carried.containers.map (containerRow quantity p.containerStatuses))) =
        some (.list (p.containers.map (containerRow quantity p.containerStatuses))) := hget "containers"
    have hrows : (p.containers.map Container.carried).map (containerRow quantity p.containerStatuses) =
        p.containers.map (containerRow quantity p.containerStatuses) := Value.list.inj (Option.some.inj hcontainers)
    rw [List.map_map] at hrows
    have hrow' : containerRow quantity p.containerStatuses c.carried = containerRow quantity p.containerStatuses c :=
      List.map_inj_left.mp hrows c hc
    have hresources : some (resourcesRow quantity c.carried.resources) = some (resourcesRow quantity c.resources) :=
      congrArg (fun row => Value.get row "resources") hrow'
    have hkeys (k : String) := congrArg (fun row => Value.get row k) (Option.some.inj hresources)
    have hlimits := hkeys "limits"
    have hrequests := hkeys "requests"
    simp only [get_resources] at hlimits hrequests
    exact ⟨ne_of_map_filled hlimits, ne_of_map_filled hrequests⟩

/-- The row of a pod is the one its object gives just where the object leaves nothing out of it. -/
theorem info_carried_iff : info quantity p.carried = info quantity p ↔ p.Kept := by
  refine ⟨kept_of_info, fun h => ?_⟩
  have hrows : p.carried.initContainers.map (initRow p.initContainerStatuses) =
      p.initContainers.map (initRow p.initContainerStatuses) := by
    show (p.initContainers.map Container.carried).map _ = _
    rw [List.map_map]
    exact List.map_congr_left fun c _ => initRow_carried _ c
  rw [info_eq, info_eq, members_carried h]
  exact congrArg (fun rows => Except.ok (Value.map (members quantity p rows))) hrows

end Carried

section Values
variable {Q : Type} {parsers : Parsers Q} {f : Item → Item} {keys : List String} {k : String}

/-- A map whose values at some keys are changed. -/
def atKeys (keys : List String) (f : Item → Item) (m : List (String × Item)) : List (String × Item) :=
  m.map fun kv => (kv.1, if kv.1 ∈ keys then f kv.2 else kv.2)

/-- A change of a map, of nothing else. -/
def onMap (f : List (String × Item) → List (String × Item)) : Item → Item
  | .map m => .map (f m)
  | v => v

def each (f : Item → Item) : Item → Item
  | .slice items => .slice (items.map f)
  | v => v

def withoutValue (m : List (String × Item)) : List (String × Item) := m.filter fun kv => kv.1 ≠ "value"

def hideEnv : List (String × Item) → List (String × Item) := atKeys ["env"] (each (onMap withoutValue))

def hideSpec : List (String × Item) → List (String × Item) :=
  atKeys ["containers", "initContainers", "ephemeralContainers"] (each (onMap hideEnv))

/-- An object without the values of its containers' environment entries. -/
def hideValues (o : GoMap Item) : GoMap Item := o.map (atKeys ["spec"] (onMap hideSpec))

theorem index_atKeys (hnull : f .null = .null) (m : List (String × Item)) :
    index (atKeys keys f m) k = if k ∈ keys then f (index m k) else index m k := by
  induction m with
  | nil => simp [atKeys, index, hnull]
  | cons kv m ih =>
    have hcons (l : List (String × Item)) (v : Item) :
        index ((kv.1, v) :: l) k = if kv.1 = k then v else index l k := by
      by_cases h : kv.1 = k <;> simp [index, h]
    have hchange : atKeys keys f (kv :: m) = (kv.1, if kv.1 ∈ keys then f kv.2 else kv.2) :: atKeys keys f m := rfl
    rw [hchange, hcons, ih, hcons m kv.2]
    by_cases h : kv.1 = k <;> by_cases hk : k ∈ keys <;> simp [h, hk]

theorem mapOf_onMap (f : List (String × Item) → List (String × Item)) (v : Item) :
    mapOf (onMap f v) = (mapOf v).map f := by
  cases v <;> rfl

theorem mapsOf_each (f : List (String × Item) → List (String × Item)) (v : Item) :
    mapsOf (each (onMap f) v) = (mapsOf v).map f := by
  have hlist : listOf (each (onMap f) v) = (listOf v).map (onMap f) := by cases v <;> rfl
  rw [mapsOf, hlist, List.filterMap_map, mapsOf, List.map_filterMap]
  exact List.filterMap_congr fun item _ => mapOf_onMap f item

theorem envVarOf_withoutValue (e : List (String × Item)) : envVarOf (withoutValue e) = envVarOf e := by
  have hindex {k : String} (hk : k ≠ "value") : index (withoutValue e) k = index e k := by
    have hpass : (fun kv : String × Item => decide (decide (kv.1 ≠ "value") = true ∧ decide (kv.1 = k) = true)) =
        fun kv => decide (kv.1 = k) := by
      funext kv
      by_cases hkv : kv.1 = k <;> simp [hkv, hk]
    rw [index, withoutValue, List.find?_filter, hpass, index]
  rw [envVarOf, hindex (by decide), hindex (by decide)]
  rfl

theorem containerOf_hideEnv (m : List (String × Item)) : containerOf parsers (hideEnv m) = containerOf parsers m := by
  have hindex (k : String) : index (hideEnv m) k =
      if k ∈ ["env"] then each (onMap withoutValue) (index m k) else index m k := index_atKeys rfl m
  have henv : (mapsOf (each (onMap withoutValue) (index m "env"))).map envVarOf =
      (mapsOf (index m "env")).map envVarOf := by
    rw [mapsOf_each, List.map_map]
    exact List.map_congr_left fun e _ => envVarOf_withoutValue e
  simp [containerOf, hindex, henv]

theorem containersOf_hideEnv (v : Item) : containersOf parsers (each (onMap hideEnv) v) = containersOf parsers v := by
  rw [containersOf, mapsOf_each, List.map_map]
  exact List.map_congr_left fun m _ => containerOf_hideEnv m

/-- The values of environment entries are not read. -/
theorem fromObject_hideValues (o : GoMap Item) : fromObject parsers (hideValues o) = fromObject parsers o := by
  have hentry (k : String) :
      (hideValues o).entry k = if k ∈ ["spec"] then onMap hideSpec (o.entry k) else o.entry k := by
    cases o with
    | none => by_cases h : k ∈ ["spec"] <;> simp [hideValues, GoMap.entry, index, onMap]
    | some m => exact index_atKeys rfl m
  have hspec (k : String) : (mapOf (onMap hideSpec (o.entry "spec"))).entry k =
      if k ∈ ["containers", "initContainers", "ephemeralContainers"] then
        each (onMap hideEnv) ((mapOf (o.entry "spec")).entry k)
      else (mapOf (o.entry "spec")).entry k := by
    rw [mapOf_onMap]
    cases mapOf (o.entry "spec") with
    | none =>
      by_cases h : k ∈ ["containers", "initContainers", "ephemeralContainers"] <;> simp [GoMap.entry, index, each]
    | some m => exact index_atKeys rfl m
  simp [fromObject, hentry, hspec, containersOf_hideEnv]

end Values

section Shown
variable {Q : Type} {parsers : Parsers Q} {quantity : Q → String}

/-- The row of a live update is the row of the list, wherever the object carries what the row is made of; it is made
of every object, and of none of its environment values. -/
theorem info_fromObject (hquantities : ∀ q, parsers.quantity (quantity q) = some q) :
    (∀ p : Pod Q, (∀ t ∈ p.times, parsers.ReadsTime t) →
      (info quantity (fromObject parsers (some (encode quantity p))) = info quantity p ↔ p.Kept)) ∧
    (∀ o, ∃ row, info quantity (fromObject parsers o) = .ok (.map row)) ∧
    ∀ o o', hideValues o = hideValues o' →
      info quantity (fromObject parsers o) = info quantity (fromObject parsers o') := by
  refine ⟨fun p htimes => ?_, fun o => ⟨_, info_eq _⟩, fun o o' h => ?_⟩
  · rw [fromObject_encode hquantities htimes]
    exact info_carried_iff
  · rw [← fromObject_hideValues o, h, fromObject_hideValues]

/-- Parsers that know one time and quantities in their canonical form. -/
def plainParsers : Parsers String where
  time s := if s = "2026-10-10T00:05:00Z" then some 1791590700000000 else none
  quantity := some
  sprint _ := ""

def created : ℤ := 1791590700000000

/-- A pod with a container that runs and a map of labels. -/
def webPod (labels : GoMap String) : Pod String where
  name := "web"
  ns := "demo"
  creationTimestamp := created
  deletionTimestamp := none
  labels := labels
  ownerReferences := [⟨"ReplicaSet", "web-1", "u1", some true⟩]
  nodeName := "n1"
  serviceAccountName := ""
  priorityClassName := ""
  runtimeClassName := none
  containers := [{
    name := "app"
    image := "example.test/app:1"
    ports := [⟨"http", 8080, "TCP"⟩]
    resources := ⟨some [("memory", "1Gi")], none⟩
    volumeMounts := [⟨"data", "/data", true⟩]
    env := [⟨"MODE", "plain", none⟩]
    envFrom := [⟨"", some ⟨"settings", none⟩, none⟩]
    securityContext := some ⟨some 1000, none, some true, none, none, none, none⟩
    command := []
    args := ["serve"]
    restartPolicy := none }]
  initContainers := []
  volumes := []
  imagePullSecrets := []
  resourceClaims := []
  phase := "Running"
  reason := ""
  message := ""
  podIP := "10.0.0.7"
  conditions := [⟨"Ready", "True", ""⟩]
  containerStatuses := [⟨"app", true, some true, 2, ⟨none, some ⟨created⟩, none⟩, ⟨none, none, none⟩⟩]
  initContainerStatuses := []

theorem readsTime_webPod (labels : GoMap String) : ∀ t ∈ (webPod labels).times, plainParsers.ReadsTime t := by
  have hcreated : plainParsers.ReadsTime created := fun _ => by decide
  intro t ht
  obtain rfl : t = created := by
    simpa [Pod.times, webPod, ContainerStatus.times, ContainerState.times] using ht
  exact hcreated

theorem info_fromObject_web :
    info id (fromObject plainParsers (some (encode id (webPod (some [("app", "web")]))))) =
      info id (webPod (some [("app", "web")])) :=
  ((info_fromObject fun _ => rfl).1 _ (readsTime_webPod _)).mpr
    ⟨by simp [webPod], by simp [webPod], by simp [webPod]⟩

/-- A map of labels that is empty and not nil does not go into the object. -/
theorem info_fromObject_unlabelled :
    info id (fromObject plainParsers (some (encode id (webPod (some []))))) ≠ info id (webPod (some [])) := by
  rw [@fromObject_encode String plainParsers id (fun _ => rfl) _ (readsTime_webPod _), ne_eq, info_carried_iff]
  exact fun h => h.labels rfl

end Shown
end Kubeast.PodRow.Corev1
