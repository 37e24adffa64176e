import Kubeast.Gate.PodSecurity
import Kubeast.Render.Annotations
import Kubeast.Render.Resolves

/-! What the gate finds in rendered objects: nothing but what the image and the choice of host users
give. -/
namespace Kubeast.Render
open Gate (containerRule podRule dot noItems allContainers ownContainers)
open Rego (objectGet objectGetPath)
open Sorted (mem_sortBy)

section Rules
variable {rule rest msg : String} {containers : Value → Rego.Term} {breaks : Value → Value → Bool}
  {podBreaks : Value → Bool} {p : Gate.Pod}

theorem containerRule_eq_nil (h : ∀ c ∈ Rego.items (containers p.spec), breaks p.spec c = false) :
    containerRule rule containers breaks rest p = [] := by
  rw [containerRule, List.filterMap_eq_nil_iff]
  intro c hc
  rw [if_neg (by rw [h c hc]; exact Bool.false_ne_true)]

theorem podRule_eq_nil (h : podBreaks p.spec = false) : podRule rule podBreaks msg p = [] := by
  rw [podRule, if_neg (by rw [h]; exact Bool.false_ne_true)]

end Rules

section Pod
variable {r : Renderer} {p : Provided} {profile : Option Profile} {containers : List Value}
  {volumes : List PodVolume} {key cname : String} {c : Container} {parts : ContainerParts}
  {path : List String} {d : Value}

/-- What a rendered pod does not set. -/
theorem get_podSpec_unset (h : key ∈ ["initContainers", "ephemeralContainers", "hostNetwork", "hostPID", "hostIPC"]) :
    (podSpec r p containers volumes profile).get key = none := by
  have hprofile : (Value.map (profile.toList.flatMap fun profile =>
      mapField "nodeSelector" profile.nodeSelector ++
        listField "tolerations" (profile.tolerations.map tolerationObject))).get key = none := by
    apply get_profile
    simp only [List.mem_cons, List.not_mem_nil, or_false] at h ⊢
    rcases h with rfl | rfl | rfl | rfl | rfl <;> decide
  simp only [List.mem_cons, List.not_mem_nil, or_false] at h
  unfold podSpec
  rw [Value.get_append, Value.get_append, hprofile]
  rcases h with rfl | rfl | rfl | rfl | rfl <;> split <;> simp [Value.get_cons, get_listField]

theorem find_podSecurity : (podSpec r p containers volumes profile).find ("securityContext" :: path) =
    (Value.map [("runAsNonRoot", .bool true),
      ("seccompProfile", .map [("type", .str "RuntimeDefault")])]).find path := find_cons rfl

theorem hostUsers_podSpec : (podSpec r p containers volumes profile).get "hostUsers" =
    if r.ext.hostUsers.getD r.env.hostUsers then none else some (.bool false) := by
  unfold podSpec
  rw [Value.get_append, Value.get_append, get_profile (by decide)]
  split <;> simp [Value.get_cons, get_listField]

theorem find_containerSecurity : (containerObject r cname c parts).find ("securityContext" :: path) =
    (securityContext r).find path := by
  apply find_cons
  simp [containerObject, Value.get_append, Value.get_cons, get_listField, get_field]

theorem resources_containerObject : (containerObject r cname c parts).get "resources" = some parts.resources := by
  simp [containerObject, Value.get_append, Value.get_cons, get_listField]

theorem objectGet_podSpec {k : String} {d : Value} :
    objectGet (some (podSpec r p containers volumes profile)) k (some d) =
      some (((podSpec r p containers volumes profile).get k).getD d) := rfl

theorem allContainers_podSpec :
    allContainers (podSpec r p containers volumes profile) = some (.list containers) := by
  have hget : (podSpec r p containers volumes profile).get "containers" = some (.list containers) := by
    simp [podSpec, Value.get_cons]
  rw [allContainers, noItems, objectGet_podSpec, objectGet_podSpec, objectGet_podSpec, hget,
    get_podSpec_unset (by decide), get_podSpec_unset (by decide)]
  simp [Rego.concat]

theorem ownContainers_podSpec :
    ownContainers (podSpec r p containers volumes profile) = some (.list containers) := by
  have hget : (podSpec r p containers volumes profile).get "containers" = some (.list containers) := by
    simp [podSpec, Value.get_cons]
  rw [ownContainers, noItems, objectGet_podSpec, hget]
  rfl

theorem objectGetPath_podSpec :
    objectGetPath (some (podSpec r p containers volumes profile)) path (some d) =
      some (((podSpec r p containers volumes profile).find path).getD d) := rfl

theorem objectGetPath_containerObject : objectGetPath (some (containerObject r cname c parts)) path (some d) =
    some (((containerObject r cname c parts).find path).getD d) := rfl

theorem dot_security {k : String} : (dot (containerObject r cname c parts) "securityContext").dot k =
    (securityContext r).get k := by
  have hget : (containerObject r cname c parts).get "securityContext" = some (securityContext r) := by
    simp [containerObject, Value.get_append, Value.get_cons, get_listField, get_field]
  simp only [dot, Rego.Term.dot, Option.bind_some, hget]

/-- A container of the renderer's own, with its resources. -/
structure OwnContainer (r : Renderer) (v : Value) : Prop where
  made : ∃ cname c parts request, v = containerObject r cname c parts ∧
    parts.resources = (resources r cname request).value

/-- The resources that a container asks for. -/
theorem resources_value {c : String} {q : Option ContainerResources} : ∃ cpu memory limit cpuLimit,
    (resources r c q).value = .map [
      ("requests", .map [("cpu", .str cpu), ("memory", .str memory)]),
      ("limits", .map (field "cpu" cpuLimit ++ [("memory", .str limit)]))] :=
  ⟨_, _, _, _, rfl⟩

variable {obj : Value}

/-- The Pod Security rules find nothing. -/
theorem podSecurity_silent (hown : ∀ v ∈ containers, OwnContainer r v)
    (huser : ∀ n, r.ext.runAsUser = some n → 1 ≤ n)
    (hvolumes : ∀ v ∈ volumes, v.source.1 ≠ "hostPath") :
    Gate.podSecurity ⟨obj, podSpec r p containers volumes profile⟩ = [] := by
  have heach {rule rest : String} {breaks : Value → Value → Bool}
      (h : ∀ cname c parts, breaks (podSpec r p containers volumes profile)
        (containerObject r cname c parts) = false) :
      containerRule rule allContainers breaks rest ⟨obj, podSpec r p containers volumes profile⟩ = [] := by
    apply containerRule_eq_nil
    intro v hv
    rw [allContainers_podSpec] at hv
    obtain ⟨cname, c, parts, -, rfl, -⟩ := (hown v hv).made
    exact h cname c parts
  have hnonRoot : Gate.runAsNonRoot ⟨obj, podSpec r p containers volumes profile⟩ = [] := by
    apply heach
    intro cname c parts
    rw [objectGetPath_podSpec, find_podSecurity, objectGetPath_containerObject, find_containerSecurity]
    simp [securityContext, Value.find, Value.get_cons, get_field, Rego.ne]
  have hpodUser : Gate.podRunsAsRoot ⟨obj, podSpec r p containers volumes profile⟩ = [] :=
    podRule_eq_nil rfl
  have hcontainerUser : Gate.containerRunsAsRoot ⟨obj, podSpec r p containers volumes profile⟩ = [] := by
    apply heach
    intro cname c parts
    rw [dot_security]
    cases hext : r.ext.runAsUser with
    | none => simp [securityContext, Value.get_cons, hext, Rego.eq, field]
    | some n =>
      have hpos := huser n hext
      have hne : n ≠ 0 := by omega
      simpa [securityContext, Value.get_cons, get_field, hext, Rego.eq] using hne
  have hescalation : Gate.noPrivilegeEscalation ⟨obj, podSpec r p containers volumes profile⟩ = [] := by
    apply heach
    intro cname c parts
    rw [objectGetPath_containerObject, find_containerSecurity]
    simp [securityContext, Value.find, Value.get_cons, Rego.ne]
  have hdrops : Gate.dropsAll ⟨obj, podSpec r p containers volumes profile⟩ = [] := by
    apply heach
    intro cname c parts
    rw [noItems, objectGetPath_containerObject, find_containerSecurity]
    simp [securityContext, Value.find, Value.get_cons, Rego.mem, Rego.items, strList]
  have hadds : Gate.addsNone ⟨obj, podSpec r p containers volumes profile⟩ = [] := by
    rw [Gate.addsNone, List.flatMap_eq_nil_iff]
    intro v hv
    rw [allContainers_podSpec] at hv
    obtain ⟨cname, c, parts, -, rfl, -⟩ := (hown v hv).made
    rw [noItems, objectGetPath_containerObject, find_containerSecurity]
    simp [securityContext, Value.find, Value.get_cons, Rego.items]
  have hseccomp : Gate.seccompProfile ⟨obj, podSpec r p containers volumes profile⟩ = [] := by
    apply heach
    intro cname c parts
    rw [objectGetPath_podSpec, find_podSecurity, objectGetPath_containerObject, find_containerSecurity]
    simp [securityContext, Value.find, Value.get_cons, get_field]
  have hprivileged : Gate.noPrivileged ⟨obj, podSpec r p containers volumes profile⟩ = [] := by
    apply heach
    intro cname c parts
    rw [dot_security]
    simp [securityContext, Value.get_cons, get_field, Rego.eq]
  have hnamespaces : Gate.noHostNamespaces ⟨obj, podSpec r p containers volumes profile⟩ = [] := by
    rw [Gate.noHostNamespaces, List.flatMap_eq_nil_iff]
    intro field hfield
    apply podRule_eq_nil
    have hunset : (podSpec r p containers volumes profile).get field = none := by
      apply get_podSpec_unset
      simp only [Gate.hostFields, List.mem_cons, List.not_mem_nil, or_false] at hfield ⊢
      exact Or.inr (Or.inr hfield)
    simp [dot, Rego.Term.dot, hunset, Rego.eq]
  have hhostPath : Gate.noHostPath ⟨obj, podSpec r p containers volumes profile⟩ = [] := by
    rw [Gate.noHostPath, List.filterMap_eq_nil_iff]
    intro v hv
    rw [noItems, objectGet_podSpec, get_volumes_podSpec, get_listField] at hv
    have hvolume : v ∈ volumes.map PodVolume.toValue := by
      split at hv
      · exact hv
      · cases hv
    obtain ⟨volume, hmem, rfl⟩ := List.mem_map.mp hvolume
    have hget : volume.toValue.get "hostPath" = none := by
      rw [PodVolume.toValue, Value.get_cons, if_neg (by decide)]
      exact Value.get_cons.trans (if_neg (hvolumes volume hmem))
    simp [dot, Rego.Term.dot, hget, Rego.truthy, Rego.ne]
  rw [Gate.podSecurity, hnonRoot, hpodUser, hcontainerUser, hescalation, hdrops, hadds, hseccomp,
    hprivileged, hnamespaces, hhostPath]
  rfl

/-- The other rules find nothing, but for those on images and host users. -/
theorem goldenPath_silent (hown : ∀ v ∈ containers, OwnContainer r v) {registries : List String}
    (hreason : r.ext.readOnlyRoot = false → objectGetPath (some obj)
      ["metadata", "annotations", "kubeast.io/read-only-root-reason"] (some (.str "")) =
        some (.str r.ext.readOnlyRootReason) ∧ r.ext.readOnlyRootReason ≠ "") :
    Gate.goldenPath registries ⟨obj, podSpec r p containers volumes profile⟩ =
      Gate.hostUsers ⟨obj, podSpec r p containers volumes profile⟩ ++
      Gate.imageTag ⟨obj, podSpec r p containers volumes profile⟩ ++
      Gate.noLatestTag ⟨obj, podSpec r p containers volumes profile⟩ ++
      Gate.allowedRegistry registries ⟨obj, podSpec r p containers volumes profile⟩ := by
  have heach {rule rest : String} {breaks : Value → Value → Bool}
      (h : ∀ v ∈ containers, breaks (podSpec r p containers volumes profile) v = false) :
      containerRule rule ownContainers breaks rest ⟨obj, podSpec r p containers volumes profile⟩ = [] := by
    apply containerRule_eq_nil
    intro v hv
    rw [ownContainers_podSpec] at hv
    exact h v hv
  have hroot : Gate.readOnlyRoot ⟨obj, podSpec r p containers volumes profile⟩ = [] := by
    unfold Gate.readOnlyRoot
    split
    · next hnone =>
      apply heach
      intro v hv
      obtain ⟨cname, c, parts, -, rfl, -⟩ := (hown v hv).made
      have hon : r.ext.readOnlyRoot = true := by
        by_contra hoff
        obtain ⟨hget, hne⟩ := hreason (Bool.eq_false_of_not_eq_true hoff)
        rw [hget, Rego.eq_iff] at hnone
        exact hne (Value.str.inj (Option.some.inj hnone))
      rw [objectGetPath_containerObject, find_containerSecurity]
      simp [securityContext, Value.find, Value.get_cons, Rego.ne, hon]
    · rfl
  have hrequests : Gate.resourceRequests ⟨obj, podSpec r p containers volumes profile⟩ = [] := by
    rw [Gate.resourceRequests, List.flatMap_eq_nil_iff]
    intro resource hresource
    apply heach
    intro v hv
    obtain ⟨cname, c, parts, request, rfl, hparts⟩ := (hown v hv).made
    obtain ⟨cpu, memory, limit, cpuLimit, hvalue⟩ := resources_value (r := r) (c := cname) (q := request)
    have hget : dot (containerObject r cname c parts) "resources" = some _ :=
      resources_containerObject.trans (congrArg some (hparts.trans hvalue))
    rw [hget]
    simp only [List.mem_cons, List.not_mem_nil, or_false] at hresource
    rcases hresource with rfl | rfl <;> rfl
  have hlimit : Gate.memoryLimit ⟨obj, podSpec r p containers volumes profile⟩ = [] := by
    apply heach
    intro v hv
    obtain ⟨cname, c, parts, request, rfl, hparts⟩ := (hown v hv).made
    obtain ⟨cpu, memory, limit, cpuLimit, hvalue⟩ := resources_value (r := r) (c := cname) (q := request)
    have hget : dot (containerObject r cname c parts) "resources" = some _ :=
      resources_containerObject.trans (congrArg some (hparts.trans hvalue))
    rw [hget]
    cases cpuLimit <;> rfl
  rw [Gate.goldenPath, hroot, hrequests, hlimit]
  simp only [List.append_nil]

end Pod

section Rendered
variable {r : Renderer} {built : Effects} {objects : List Value} {o : Value} {registries : List String}
  {f : Gate.Finding} {p : Gate.Pod}

/-- The only pods are those of the deployment. -/
theorem pods_rendered (h : rendered r = .ok built) (hobjects : ∀ o ∈ objects, o ∈ built.objects)
    (hp : p ∈ Gate.pods objects) :
    p = ⟨deploymentOut r, podOut r (provided r) (prepare r).value.1⟩ := by
  obtain ⟨o, ho, hpod⟩ := List.mem_filterMap.mp hp
  obtain ⟨spec, hspec, rfl⟩ := Option.map_eq_some_iff.mp hpod
  obtain ⟨kind, hkind, name, hmade, -⟩ := (named_rendered h).made o (hobjects o ho)
  have hdot : dot o "kind" = some (.str kind) := hmade.tagged.1.kind_eq
  have hdeployment : kind = "Deployment" := by
    by_contra hne
    have hnone : Gate.podSpec o = none := by
      unfold Gate.podSpec
      rw [hdot]
      simp only [madeKinds, List.mem_append, List.mem_singleton] at hkind
      rcases hkind with rfl | rfl | rfl | rfl | rfl | rfl | rfl | rfl | rfl
      all_goals first | exact absurd rfl hne | rfl
    rw [hnone] at hspec
    cases hspec
  obtain ⟨-, -, hone⟩ := deployment_rendered h
  have hkindOf : kindOf o = "Deployment" := by
    rw [kindOf, hmade.tagged.1.kind_eq, hdeployment]
    rfl
  obtain rfl := hone o (hobjects o ho) hkindOf
  have hpodSpec : Gate.podSpec (deploymentOut r) = some (podOut r (provided r) (prepare r).value.1) := rfl
  rw [hpodSpec] at hspec
  rw [Option.some.inj hspec]

theorem ownContainers_rendered (h : rendered r = .ok built) :
    ∀ v ∈ containersOut r (provided r), OwnContainer r v := by
  obtain ⟨parts, hobjects, hparts⟩ := (contents_of_rendered h).containers
  intro v hv
  rw [hobjects] at hv
  obtain ⟨c, hc, rfl⟩ := List.mem_map.mp hv
  exact ⟨⟨_, _, _, _, rfl, (hparts c (mem_sortedRows.mp hc)).1.resources⟩⟩

theorem source_podVolumes {p : Provided} {seen : Effects} :
    ∀ v ∈ podVolumes r p (filesOut r p) seen, v.source.1 ≠ "hostPath" := by
  intro v hv
  unfold podVolumes at hv
  rcases List.mem_append.mp (mem_sortBy.mp hv) with hv | hv
  · rcases List.mem_append.mp hv with hv | hv
    · split at hv
      · rw [List.mem_singleton.mp hv]
        simp
      · cases hv
    · unfold filesOut files at hv
      rw [bind_value] at hv
      dsimp only at hv
      split at hv
      · cases hv
      · rw [List.mem_singleton.mp hv]
        simp
  · obtain ⟨row, -, rfl⟩ := List.mem_map.mp hv
    simp

/-- The reason for a root that is written to is on the deployment. -/
theorem reason_rendered (hroot : r.ext.readOnlyRoot = false) :
    (deploymentOut r).find ["metadata", "annotations", "kubeast.io/read-only-root-reason"] =
      some (.str r.ext.readOnlyRootReason) := by
  have hannotations : (deploymentOut r).find ["metadata", "annotations", "kubeast.io/read-only-root-reason"] =
      (Value.map (exceptions r ++ [(annOwner, Value.str (r.owner "Deployment" r.name))])).find
        ["kubeast.io/read-only-root-reason"] := rfl
  rw [hannotations]
  simp [exceptions, hroot, Value.find, Value.get_cons]

theorem rule_of_podRule {rule msg : String} {breaks : Value → Bool} (h : f ∈ podRule rule breaks msg p) :
    f.rule = rule := by
  unfold podRule at h
  split at h
  · exact (Gate.found_eq_some (Option.mem_toList.mp h)).1
  · cases h

theorem rule_of_imageRule {rule : String} {breaks : Rego.Term → Bool} {rest : List Gate.Part}
    (h : f ∈ Gate.imageRule rule breaks rest p) : f.rule = rule := by
  obtain ⟨c, -, hc⟩ := List.mem_filterMap.mp h
  split at hc
  · obtain ⟨image, -, hfound⟩ := Option.bind_eq_some_iff.mp hc
    exact (Gate.found_eq_some hfound).1
  · cases hc

/-- What the gate finds is a choice of the image or of host users. -/
theorem finding_rendered (h : rendered r = .ok built) (hobjects : ∀ o ∈ objects, o ∈ built.objects)
    (huser : ∀ n, r.ext.runAsUser = some n → 1 ≤ n)
    (hreason : r.ext.readOnlyRoot = false → r.ext.readOnlyRootReason ≠ "")
    (hf : f ∈ Gate.finding registries objects) :
    f.rule ∈ ["image-tag", "no-latest-tag", "allowed-registry"] ∨
      f.rule = "host-users" ∧ r.ext.hostUsers.getD r.env.hostUsers = true := by
  obtain ⟨p, hp, hf⟩ := List.mem_flatMap.mp hf
  rw [pods_rendered h hobjects hp, podOut, podSecurity_silent (ownContainers_rendered h) huser source_podVolumes,
    goldenPath_silent (ownContainers_rendered h) (fun hroot => ⟨?_, hreason hroot⟩), List.nil_append] at hf
  · simp only [List.mem_append] at hf
    rcases hf with ((hf | hf) | hf) | hf
    · right
      refine ⟨rule_of_podRule hf, ?_⟩
      by_contra hoff
      have hnone : Gate.hostUsers ⟨deploymentOut r, podOut r (provided r) (prepare r).value.1⟩ = [] := by
        apply podRule_eq_nil
        rw [podOut, objectGet_podSpec, hostUsers_podSpec, if_neg hoff]
        rfl
      rw [podOut] at hnone
      rw [hnone] at hf
      cases hf
    · exact Or.inl (by rw [rule_of_imageRule hf]; decide)
    · exact Or.inl (by rw [rule_of_imageRule hf]; decide)
    · unfold Gate.allowedRegistry at hf
      split at hf
      · exact Or.inl (by rw [rule_of_imageRule hf]; decide)
      · cases hf
  · have hfind := reason_rendered hroot
    have hget : objectGetPath (some (deploymentOut r))
        ["metadata", "annotations", "kubeast.io/read-only-root-reason"] (some (.str "")) =
        some (((deploymentOut r).find ["metadata", "annotations", "kubeast.io/read-only-root-reason"]).getD
          (.str "")) := rfl
    rw [hget, hfind]
    rfl

/-- The golden path passes its own gate: whatever an accepted workload and its environment are,
rendered without patches and raw files the gate finds nothing but images it does not want and host
users that were turned on. A root that may be written to has its reason on the deployment. -/
theorem render_passes_gate {lib : ScoreGo} {yaml : Yaml} {i : Input} {res : Result}
    (hext : parseExt i.workload.metadata = .ok i.ext) (hpatches : i.patches = []) (hraw : i.raw = [])
    (h : render lib yaml i = .ok res) :
    (∀ registries, ∀ f ∈ Gate.finding registries res.objects,
      f.rule ∈ ["image-tag", "no-latest-tag", "allowed-registry"] ∨
        f.rule = "host-users" ∧
          (i.ext.hostUsers = some true ∨ i.ext.hostUsers = none ∧ i.env.hostUsers = true)) ∧
    (i.ext.readOnlyRoot = false → ∀ d ∈ res.objects, kindOf d = "Deployment" → ∃ reason, reason ≠ "" ∧
      d.find ["metadata", "annotations", "kubeast.io/read-only-root-reason"] = some (.str reason)) := by
  obtain ⟨ns, built, -, hbuilt, hobjects, -⟩ := render_eq_ok h
  obtain ⟨huser, hreason⟩ := parseExt_spec hext
  have hmem : ∀ o ∈ res.objects, o ∈ built.objects := by
    intro o ho
    rw [hobjects, hpatches, hraw, addRaw, List.foldl_nil, List.append_nil, applyPatches] at ho
    exact mem_sortBy.mp ho
  constructor
  · intro registries f hf
    refine (finding_rendered hbuilt hmem huser hreason hf).imp_right ?_
    rintro ⟨hrule, hon⟩
    refine ⟨hrule, ?_⟩
    have hon : i.ext.hostUsers.getD i.env.hostUsers = true := hon
    cases husers : i.ext.hostUsers with
    | none =>
      rw [husers] at hon
      exact Or.inr ⟨rfl, hon⟩
    | some b =>
      rw [husers] at hon
      exact Or.inl (congrArg some hon)
  · intro hroot d hd hkind
    obtain ⟨-, -, hone⟩ := deployment_rendered hbuilt
    rw [hone d (hmem d hd) hkind]
    exact ⟨_, hreason hroot, reason_rendered hroot⟩

end Rendered

section Runs

/-- A workload whose container writes to its root, for a reason. -/
def writableInput : Input :=
  { inputOf { smallInput.workload with
      metadata := .map [("name", .str "web"), ("annotations", .map [(keyReadOnlyRoot, .str "false"),
        (keyReadOnlyRootReason, .str "writes its cache next to its code")])] } smallEnv with
    ext := { plainExt with
      readOnlyRoot := false
      readOnlyRootReason := "writes its cache next to its code" } }

theorem render_passes_gate_writable : ∃ res, render mapsLib smallYaml writableInput = .ok res ∧
    (∀ registries, ∀ f ∈ Gate.finding registries res.objects,
      f.rule ∈ ["image-tag", "no-latest-tag", "allowed-registry"] ∨
        f.rule = "host-users" ∧ (writableInput.ext.hostUsers = some true ∨
          writableInput.ext.hostUsers = none ∧ writableInput.env.hostUsers = true)) ∧
    (writableInput.ext.readOnlyRoot = false → ∀ d ∈ res.objects, kindOf d = "Deployment" →
      ∃ reason, reason ≠ "" ∧
        d.find ["metadata", "annotations", "kubeast.io/read-only-root-reason"] = some (.str reason)) := by
  have hok : (render mapsLib smallYaml writableInput).isOk = true := by decide
  have hext : parseExt writableInput.workload.metadata = .ok writableInput.ext := by rfl
  have h := Transition.eq_ok_of_isOk (s := ⟨[], [], []⟩) hok
  exact ⟨_, h, render_passes_gate hext rfl rfl h⟩

end Runs
end Kubeast.Render
