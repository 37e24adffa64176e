import Kubeast.Gate.Policy

/-! What the Pod Security rules of the gate are for: the settings a container runs with, as
Kubernetes reads them (null is absent), and the objects whose settings the rules cannot see. -/
namespace Kubeast.Gate
open Rego

section Kubernetes

/-- Where the pod template of a kind is. -/
def templatePath (kind : String) : Option (List String) :=
  if kind ∈ workloadKinds then some ["spec", "template", "spec"]
  else if kind = "CronJob" then some ["spec", "jobTemplate", "spec", "template", "spec"]
  else if kind = "Pod" then some ["spec"]
  else none

def podTemplate (obj : Value) : Option Value :=
  match obj.get "kind" with
  | some (.str kind) => (templatePath kind).bind obj.memberAt
  | _ => none

def listAt (v : Value) (k : String) : List Value :=
  match v.get k with
  | some (.list vs) => vs
  | _ => []

def containersOf (spec : Value) : List Value :=
  listAt spec "containers" ++ listAt spec "initContainers" ++ listAt spec "ephemeralContainers"

def Named (c : Value) : Prop := (c.member "name").isSome = true

def setting (v : Value) (path : List String) : Option Value := v.memberAt ("securityContext" :: path)

/-- A setting on the container, or else on the pod. -/
def effective (spec c : Value) (path : List String) : Option Value :=
  (setting c path).or (setting spec path)

/-- The container's settings are those of the rules. -/
structure Restricted (spec c : Value) : Prop where
  runAsNonRoot : effective spec c ["runAsNonRoot"] = some (.bool true)
  runAsUser : effective spec c ["runAsUser"] ≠ some (.num 0)
  allowPrivilegeEscalation : setting c ["allowPrivilegeEscalation"] = some (.bool false)
  drop : ∃ caps, setting c ["capabilities", "drop"] = some (.list caps) ∧ .str "ALL" ∈ caps
  add : ∀ caps, setting c ["capabilities", "add"] = some (.list caps) →
    ∀ cap ∈ caps, cap = .str "NET_BIND_SERVICE"
  seccomp : ∃ t ∈ ["RuntimeDefault", "Localhost"],
    effective spec c ["seccompProfile", "type"] = some (.str t)
  privileged : setting c ["privileged"] ≠ some (.bool true)
  hostNamespaces : ∀ field ∈ hostFields, spec.member field ≠ some (.bool true)
  hostPath : ∀ v ∈ listAt spec "volumes", v.member "hostPath" = none

def podSecurityRules : List String :=
  ["run-as-non-root", "run-as-user-not-root", "no-privilege-escalation", "drop-all-capabilities",
    "seccomp-profile", "no-privileged", "no-host-namespaces", "no-host-path"]

/-- The findings hold none of the object for the Pod Security rules. -/
def NotFound (registries : List String) (objects : List Value) (obj : Value) : Prop :=
  ∀ f ∈ finding registries objects, obj.get "kind" = some f.kind →
    obj.find ["metadata", "name"] = some f.name → f.rule ∉ podSecurityRules

/-- Whatever it is checked with, an object without findings has restricted containers only. -/
def Guarded (obj : Value) : Prop :=
  ∀ registries objects, obj ∈ objects → NotFound registries objects obj →
    ∀ spec, podTemplate obj = some spec → ∀ c ∈ containersOf spec, Named c → Restricted spec c

end Kubernetes

section Shapes

inductive Listed
  | absent
  | list
  | other
deriving DecidableEq

def listed : Option Value → Listed
  | none => .absent
  | some (.list _) => .list
  | some _ => .other

/-- What decides whether the rules see an object's settings. -/
structure Shape where
  /-- The object has a name. -/
  named : Bool
  containers : Listed
  initContainers : Listed
  ephemeralContainers : Listed
  /-- Each volume with a `hostPath` has a name, and no `hostPath` is `false`. -/
  volumes : Bool
  /-- No container's `capabilities.drop` is a map. -/
  drops : Bool
deriving DecidableEq

def isMap : Value → Bool
  | .map _ => true
  | _ => false

def volumeSeen (v : Value) : Bool :=
  (v.member "hostPath").all fun p => decide (p ≠ .bool false) && (v.get "name").isSome

def shape (obj : Value) : Shape :=
  let spec := (podTemplate obj).getD .null
  { named := (obj.find ["metadata", "name"]).isSome
    containers := listed (spec.get "containers")
    initContainers := listed (spec.get "initContainers")
    ephemeralContainers := listed (spec.get "ephemeralContainers")
    volumes := (listAt spec "volumes").all volumeSeen
    drops := (containersOf spec).all fun c => !(setting c ["capabilities", "drop"]).any isMap }

namespace Shape

def lists (s : Shape) : List Listed := [s.containers, s.initContainers, s.ephemeralContainers]

/-- There are no containers, or all there is to see of them is seen. -/
def Seen (s : Shape) : Prop :=
  .list ∉ s.lists ∨ (s.named = true ∧ .other ∉ s.lists ∧ s.volumes = true ∧ s.drops = true)

instance (s : Shape) : Decidable s.Seen := inferInstanceAs (Decidable (_ ∨ _))

end Shape

/-- A container breaks a rule as the rules read it. -/
def containerBreaks (spec c : Value) : Bool :=
  ne (objectGetPath (some c) ["securityContext", "runAsNonRoot"]
      (objectGetPath (some spec) ["securityContext", "runAsNonRoot"] (some (.bool false)))) (.bool true) ||
    eq ((dot c "securityContext").dot "runAsUser") (.num 0) ||
    ne (objectGetPath (some c) ["securityContext", "allowPrivilegeEscalation"] (some (.bool true))) (.bool false) ||
    !mem (.str "ALL") (objectGetPath (some c) ["securityContext", "capabilities", "drop"] noItems) ||
    (items (objectGetPath (some c) ["securityContext", "capabilities", "add"] noItems)).any
      (fun cap => decide (cap ≠ .str "NET_BIND_SERVICE")) ||
    (objectGetPath (some c) ["securityContext", "seccompProfile", "type"]
      (objectGetPath (some spec) ["securityContext", "seccompProfile", "type"] (some (.str "")))).any
      (fun t => decide (t ∉ [Value.str "RuntimeDefault", Value.str "Localhost"])) ||
    eq ((dot c "securityContext").dot "privileged") (.bool true)

/-- A pod breaks a rule as the rules read it. -/
def podBreaks (spec : Value) : Bool :=
  eq ((dot spec "securityContext").dot "runAsUser") (.num 0) ||
    hostFields.any (fun field => eq (dot spec field) (.bool true)) ||
    (items (objectGet (some spec) "volumes" noItems)).any
      fun v => (dot v "name").isSome && truthy (dot v "hostPath")

/-- The object has a name, and its pod breaks a rule, or each of the container lists there are is a list
and a container in them breaks one. -/
def Shown (obj spec : Value) : Prop :=
  (shape obj).named = true ∧ (podBreaks spec = true ∨
    .other ∉ (shape obj).lists ∧
      ∃ c ∈ containersOf spec, (dot c "name").isSome = true ∧ containerBreaks spec c = true)

/-- Every container keeps the rules. -/
def Harmless (spec : Value) : Prop := ∀ c ∈ containersOf spec, Named c → Restricted spec c

end Shapes

section Sound
variable {obj spec c v : Value} {rule : String} {p : Pod} {f : Finding} {rules : List String}

theorem podSpec_of_template (h : podTemplate obj = some spec) : podSpec obj = some spec := by
  unfold podTemplate at h
  split at h
  · next kind hkind =>
    obtain ⟨path, hpath, hmember⟩ := Option.bind_eq_some_iff.mp h
    have hfind := Value.find_of_memberAt hmember
    have hdot : dot obj "kind" = some (.str kind) := hkind
    unfold templatePath at hpath
    unfold podSpec
    rw [hdot]
    split_ifs at hpath with hworkload hcron hpod <;> obtain rfl := Option.some.inj hpath
    · rw [if_pos (by simpa using hworkload)]
      simpa [Value.find, dot, Term.dot, Option.bind_assoc] using hfind
    · subst hcron
      rw [if_neg (by decide), if_pos (by decide)]
      simpa [Value.find, dot, Term.dot, Option.bind_assoc] using hfind
    · subst hpod
      rw [if_neg (by decide), if_neg (by decide), if_pos (by decide)]
      simpa [Value.find, dot, Term.dot, Option.bind_assoc] using hfind
  · cases h

theorem found_eq_some {msg : Option (List Part)} (h : found rule obj msg = some f) :
    f.rule = rule ∧ obj.get "kind" = some f.kind ∧ obj.find ["metadata", "name"] = some f.name := by
  unfold found at h
  split at h
  · next kind name msg hkind hname =>
    obtain rfl := Option.some.inj h
    refine ⟨rfl, hkind, ?_⟩
    simpa [Value.find, dot, Term.dot] using hname
  · cases h

/-- A finding of a rule and of an object. -/
def FoundBy (rules : List String) (obj : Value) (f : Finding) : Prop :=
  f.rule ∈ rules ∧ obj.get "kind" = some f.kind ∧ obj.find ["metadata", "name"] = some f.name

theorem foundBy_of_found {msg : Option (List Part)} (h : found rule obj msg = some f)
    (hrule : rule ∈ rules) : FoundBy rules obj f := by
  obtain ⟨hrule', hkind, hname⟩ := found_eq_some h
  exact ⟨hrule' ▸ hrule, hkind, hname⟩

theorem foundBy_containerRule {containers : Value → Term} {breaks : Value → Value → Bool}
    {rest : String} (hrule : rule ∈ rules)
    (h : f ∈ containerRule rule containers breaks rest p) : FoundBy rules p.obj f := by
  obtain ⟨c, -, hc⟩ := List.mem_filterMap.mp h
  split at hc
  · exact foundBy_of_found hc hrule
  · cases hc

theorem foundBy_podRule {breaks : Value → Bool} {msg : String} (hrule : rule ∈ rules)
    (h : f ∈ podRule rule breaks msg p) : FoundBy rules p.obj f := by
  unfold podRule at h
  split at h
  · exact foundBy_of_found (Option.mem_toList.mp h) hrule
  · cases h

theorem foundBy_podSecurity (h : f ∈ podSecurity p) : FoundBy podSecurityRules p.obj f := by
  simp only [podSecurity, List.mem_append] at h
  rcases h with ((((((((h | h) | h) | h) | h) | h) | h) | h) | h) | h
  · exact foundBy_containerRule (by decide) h
  · exact foundBy_podRule (by decide) h
  · exact foundBy_containerRule (by decide) h
  · exact foundBy_containerRule (by decide) h
  · exact foundBy_containerRule (by decide) h
  · obtain ⟨c, -, hc⟩ := List.mem_flatMap.mp h
    obtain ⟨cap, -, hcap⟩ := List.mem_filterMap.mp hc
    split at hcap
    · exact foundBy_of_found hcap (by decide)
    · cases hcap
  · exact foundBy_containerRule (by decide) h
  · exact foundBy_containerRule (by decide) h
  · obtain ⟨field, -, hfield⟩ := List.mem_flatMap.mp h
    exact foundBy_podRule (by decide) hfield
  · obtain ⟨v, -, hv⟩ := List.mem_filterMap.mp h
    split at hv
    · exact foundBy_of_found hv (by decide)
    · cases hv

def goldenPathRules : List String :=
  ["host-users", "read-only-root", "resource-requests", "memory-limit", "image-tag", "no-latest-tag",
    "allowed-registry"]

theorem foundBy_imageRule {breaks : Term → Bool} {rest : List Part} (hrule : rule ∈ rules)
    (h : f ∈ imageRule rule breaks rest p) : FoundBy rules p.obj f := by
  obtain ⟨c, -, hc⟩ := List.mem_filterMap.mp h
  split at hc
  · obtain ⟨image, -, himage⟩ := Option.bind_eq_some_iff.mp hc
    exact foundBy_of_found himage hrule
  · cases hc

theorem foundBy_goldenPath {registries : List String} (h : f ∈ goldenPath registries p) :
    FoundBy goldenPathRules p.obj f := by
  simp only [goldenPath, List.mem_append] at h
  rcases h with (((((h | h) | h) | h) | h) | h) | h
  · exact foundBy_podRule (by decide) h
  · unfold readOnlyRoot at h
    split at h
    · exact foundBy_containerRule (by decide) h
    · cases h
  · obtain ⟨r, -, hr⟩ := List.mem_flatMap.mp h
    exact foundBy_containerRule (by decide) hr
  · exact foundBy_containerRule (by decide) h
  · exact foundBy_imageRule (by decide) h
  · exact foundBy_imageRule (by decide) h
  · unfold allowedRegistry at h
    split at h
    · exact foundBy_imageRule (by decide) h
    · cases h

/-- The rules find nothing in the pod of an object that has no findings. -/
theorem podSecurity_eq_nil {registries : List String} {objects : List Value} (hobj : obj ∈ objects)
    (hnot : NotFound registries objects obj) (hspec : podTemplate obj = some spec) :
    podSecurity ⟨obj, spec⟩ = [] := by
  rw [List.eq_nil_iff_forall_not_mem]
  intro f hf
  obtain ⟨hrule, hkind, hname⟩ := foundBy_podSecurity hf
  refine hnot f ?_ hkind hname hrule
  refine List.mem_flatMap.mpr ⟨⟨obj, spec⟩, ?_, List.mem_append_left _ hf⟩
  refine List.mem_filterMap.mpr ⟨obj, hobj, ?_⟩
  rw [podSpec_of_template hspec]
  rfl

/-- A list that is absent or a list is read as one. -/
theorem objectGet_listAt {k : String} (hmap : ∃ ms, spec = .map ms)
    (hlist : listed (spec.get k) ≠ .other) :
    objectGet (some spec) k noItems = some (.list (listAt spec k)) := by
  obtain ⟨ms, rfl⟩ := hmap
  rw [noItems, objectGet_map, listAt]
  unfold listed at hlist
  split at hlist
  · next h => simp [h]
  · next h => simp [h]
  · exact absurd rfl hlist

theorem allContainers_eq (hmap : ∃ ms, spec = .map ms)
    (hcontainers : listed (spec.get "containers") ≠ .other)
    (hinit : listed (spec.get "initContainers") ≠ .other)
    (hephemeral : listed (spec.get "ephemeralContainers") ≠ .other) :
    allContainers spec = some (.list (containersOf spec)) := by
  rw [allContainers, objectGet_listAt hmap hcontainers, objectGet_listAt hmap hinit,
    objectGet_listAt hmap hephemeral]
  rfl

theorem listAt_ne {k : String} (h : c ∈ listAt spec k) : listed (spec.get k) = .list := by
  unfold listAt at h
  split at h
  · next cs hget => rw [hget]; rfl
  · cases h

/-- A container is in one of the three lists. -/
theorem listed_of_mem (hc : c ∈ containersOf spec) :
    ∃ k ∈ ["containers", "initContainers", "ephemeralContainers"], listed (spec.get k) = .list := by
  rw [containersOf, List.mem_append, List.mem_append] at hc
  rcases hc with (hc | hc) | hc
  · exact ⟨_, by simp, listAt_ne hc⟩
  · exact ⟨_, by simp, listAt_ne hc⟩
  · exact ⟨_, by simp, listAt_ne hc⟩

theorem isMap_of_listed {k : String} (h : listed (spec.get k) = .list) : ∃ ms, spec = .map ms := by
  cases hget : spec.get k with
  | none =>
    rw [hget] at h
    cases h
  | some cs => exact Value.isMap_of_get hget

/-- What is read as a list is one, or is absent. -/
theorem listed_of_objectGet {k : String} {vs : List Value}
    (h : objectGet (some spec) k noItems = some (.list vs)) :
    listed (spec.get k) ≠ .other ∧ listAt spec k = vs := by
  rw [noItems] at h
  cases spec with
  | map ms =>
    rw [objectGet_map, Option.some_inj] at h
    rw [listAt]
    cases hget : (Value.map ms).get k with
    | none =>
      rw [hget] at h
      exact ⟨nofun, Value.list.inj h⟩
    | some v =>
      rw [hget] at h
      obtain rfl : v = .list vs := h
      exact ⟨nofun, rfl⟩
  | _ => cases h

/-- The rules read the containers of the three lists, and none where one of the three is no list. -/
theorem mem_items_allContainers (hspec : podTemplate obj = some spec) :
    c ∈ items (allContainers spec) ↔ .other ∉ (shape obj).lists ∧ c ∈ containersOf spec := by
  rw [shape, hspec, Option.getD_some]
  simp only [Shape.lists, List.mem_cons, List.not_mem_nil, or_false, not_or]
  constructor
  · intro hc
    have hsome : (allContainers spec).isSome = true := by
      rw [Option.isSome_iff_ne_none]
      rintro hnone
      rw [hnone] at hc
      cases hc
    obtain ⟨hitems, ⟨xs, hxs⟩, ephemeral, hephemeral⟩ := items_concat hsome
    obtain ⟨hitems', ⟨containers, hcontainers⟩, init, hinit⟩ := items_concat (Option.isSome_of_eq_some hxs)
    obtain ⟨h1, rfl⟩ := listed_of_objectGet hcontainers
    obtain ⟨h2, rfl⟩ := listed_of_objectGet hinit
    obtain ⟨h3, rfl⟩ := listed_of_objectGet hephemeral
    refine ⟨⟨h1.symm, h2.symm, h3.symm⟩, ?_⟩
    rw [allContainers, hitems, hitems', hcontainers, hinit, hephemeral] at hc
    exact hc
  · rintro ⟨⟨hcontainers, hinit, hephemeral⟩, hc⟩
    obtain ⟨k, hk, hlist⟩ := listed_of_mem hc
    rw [allContainers_eq (isMap_of_listed hlist) (Ne.symm hcontainers) (Ne.symm hinit) (Ne.symm hephemeral)]
    exact hc

theorem name_isSome (h : Named c) : (dot c "name").isSome = true := by
  obtain ⟨name, hname⟩ := Option.isSome_iff_exists.mp h
  rw [show dot c "name" = some name from (Value.member_eq_some.mp hname).1]
  rfl

/-- A finding can name the object. -/
structure Nameable (obj : Value) : Prop where
  kind : (dot obj "kind").isSome = true
  name : ((dot obj "metadata").dot "name").isSome = true

theorem nameable_of_template (hspec : podTemplate obj = some spec) (hname : (shape obj).named = true) :
    Nameable obj := by
  constructor
  · unfold podTemplate at hspec
    split at hspec
    · next kind hkind =>
      rw [show dot obj "kind" = some (.str kind) from hkind]
      rfl
    · cases hspec
  · simpa [shape, Value.find, dot, Term.dot] using hname

theorem Nameable.found_eq_none (h : Nameable obj) {msg : Option (List Part)} :
    found rule obj msg = none ↔ msg.isSome = false := by
  obtain ⟨kind, hkind⟩ := Option.isSome_iff_exists.mp h.kind
  obtain ⟨name, hname⟩ := Option.isSome_iff_exists.mp h.name
  unfold found
  rw [hkind, hname]
  cases msg <;> simp

theorem containerMsg_isSome (c : Value) (rest : List Part) :
    (containerMsg c rest).isSome = (dot c "name").isSome := Option.isSome_map

theorem Nameable.containerRule_nil (h : Nameable obj) {breaks : Value → Value → Bool} {rest : String} :
    containerRule rule allContainers breaks rest ⟨obj, spec⟩ = [] ↔
      ∀ c ∈ items (allContainers spec), (dot c "name").isSome = true → breaks spec c = false := by
  rw [containerRule, List.filterMap_eq_nil_iff]
  refine forall₂_congr fun c _ => ?_
  cases hbreaks : breaks spec c
  · simp
  · rw [if_pos rfl, h.found_eq_none, containerMsg_isSome]
    simp

theorem Nameable.podRule_nil (h : Nameable obj) {breaks : Value → Bool} {msg : String} :
    podRule rule breaks msg ⟨obj, spec⟩ = [] ↔ breaks spec = false := by
  rw [podRule]
  cases hbreaks : breaks spec
  · simp
  · rw [if_pos rfl, Option.toList_eq_nil_iff, h.found_eq_none]
    simp

theorem Nameable.addsNone_nil (h : Nameable obj) : addsNone ⟨obj, spec⟩ = [] ↔
    ∀ c ∈ items (allContainers spec), (dot c "name").isSome = true →
      (items (objectGetPath (some c) ["securityContext", "capabilities", "add"] noItems)).any
        (fun cap => decide (cap ≠ .str "NET_BIND_SERVICE")) = false := by
  rw [addsNone, List.flatMap_eq_nil_iff]
  refine forall₂_congr fun c _ => ?_
  rw [List.filterMap_eq_nil_iff, List.any_eq_false]
  constructor
  · intro hnone hnamed cap hcap
    have hcap := hnone cap hcap
    by_contra hne
    rw [if_pos (by simpa using hne), h.found_eq_none, containerMsg_isSome, hnamed] at hcap
    cases hcap
  · intro hquiet cap hcap
    split_ifs with hne
    · rw [h.found_eq_none, containerMsg_isSome]
      by_contra hnamed
      exact hquiet (Bool.eq_true_of_not_eq_false hnamed) cap hcap (by simpa using hne)
    · rfl

theorem Nameable.noHostPath_nil (h : Nameable obj) : noHostPath ⟨obj, spec⟩ = [] ↔
    (items (objectGet (some spec) "volumes" noItems)).any
      (fun v => (dot v "name").isSome && truthy (dot v "hostPath")) = false := by
  rw [noHostPath, List.filterMap_eq_nil_iff, List.any_eq_false]
  refine forall₂_congr fun v _ => ?_
  cases htruthy : truthy (dot v "hostPath")
  · simp
  · rw [if_pos rfl, h.found_eq_none, Option.isSome_map]
    simp

/-- The rules find nothing exactly where they see no rule broken. -/
theorem Nameable.podSecurity_nil (h : Nameable obj) : podSecurity ⟨obj, spec⟩ = [] ↔
    podBreaks spec = false ∧
      ∀ c ∈ items (allContainers spec), (dot c "name").isSome = true → containerBreaks spec c = false := by
  simp only [podSecurity, List.append_eq_nil_iff, runAsNonRoot, podRunsAsRoot, containerRunsAsRoot,
    noPrivilegeEscalation, dropsAll, seccompProfile, noPrivileged, noHostNamespaces, h.containerRule_nil,
    h.podRule_nil, h.addsNone_nil, h.noHostPath_nil, List.flatMap_eq_nil_iff, podBreaks, containerBreaks,
    Bool.or_eq_false_iff, List.any_eq_false (p := fun field => eq (dot spec field) (.bool true)), Bool.not_eq_true]
  constructor
  · rintro ⟨⟨⟨⟨⟨⟨⟨⟨⟨h1, h2⟩, h3⟩, h4⟩, h5⟩, h6⟩, h7⟩, h8⟩, h9⟩, h10⟩
    exact ⟨⟨⟨h2, h9⟩, h10⟩, fun c hc hn => ⟨⟨⟨⟨⟨⟨h1 c hc hn, h3 c hc hn⟩, h4 c hc hn⟩, h5 c hc hn⟩, h6 c hc hn⟩,
      h7 c hc hn⟩, h8 c hc hn⟩⟩
  · rintro ⟨⟨⟨h2, h9⟩, h10⟩, hall⟩
    refine ⟨⟨⟨⟨⟨⟨⟨⟨⟨?_, h2⟩, ?_⟩, ?_⟩, ?_⟩, ?_⟩, ?_⟩, ?_⟩, h9⟩, h10⟩
    all_goals
      intro c hc hn
      have hquiet := hall c hc hn
      simp only [hquiet]

/-- The rules see the object and all its containers. -/
structure InSight (obj spec : Value) : Prop extends Nameable obj where
  spec_map : ∃ ms, spec = .map ms
  all : allContainers spec = some (.list (containersOf spec))

theorem InSight.mem (h : InSight obj spec) (hc : c ∈ containersOf spec) : c ∈ items (allContainers spec) := by
  rw [h.all]
  exact hc

/-- A container rule that finds nothing is broken by no container. -/
theorem InSight.not_breaks (h : InSight obj spec) {breaks : Value → Value → Bool} {rest : String}
    (hnil : containerRule rule allContainers breaks rest ⟨obj, spec⟩ = [])
    (hc : c ∈ containersOf spec) (hnamed : Named c) : breaks spec c = false :=
  h.containerRule_nil.mp hnil c (h.mem hc) (name_isSome hnamed)

/-- What `object.get` falls back to is read as Kubernetes reads it, unless it is the default. -/
theorem effective_of_objectGet {path : List String} {d w : Value} (hc : ∃ ms, c = .map ms)
    (hspec : ∃ ms, spec = .map ms)
    (h : objectGetPath (some c) ("securityContext" :: path)
      (objectGetPath (some spec) ("securityContext" :: path) (some d)) = some w)
    (hd : w ≠ d) (hw : w ≠ .null) : effective spec c path = some w := by
  obtain ⟨ms, rfl⟩ := hc
  obtain ⟨ns, rfl⟩ := hspec
  rw [objectGetPath_map, objectGetPath_map, Option.some.injEq] at h
  cases hfind : (Value.map ms).find ("securityContext" :: path) with
  | some u =>
    rw [hfind, Option.getD_some] at h
    subst h
    rw [effective, setting, Value.memberAt_eq_some hfind hw, Option.some_or]
  | none =>
    have hnone : setting (.map ms) path = none := by
      rw [Option.eq_none_iff_forall_ne_some]
      intro u hu
      rw [Value.find_of_memberAt hu] at hfind
      cases hfind
    rw [hfind, Option.getD_none] at h
    cases hfind' : (Value.map ns).find ("securityContext" :: path) with
    | some u =>
      rw [hfind', Option.getD_some] at h
      subst h
      rw [effective, hnone, Option.none_or, setting, Value.memberAt_eq_some hfind' hw]
    | none =>
      rw [hfind', Option.getD_none] at h
      exact absurd h.symm hd

theorem dot_of_setting {k : String} {w : Value} (h : setting v [k] = some w) :
    (dot v "securityContext").dot k = some w := by
  simpa [Value.find, dot, Term.dot] using Value.find_of_memberAt h

theorem InSight.restricted (h : InSight obj spec) (hnil : podSecurity ⟨obj, spec⟩ = [])
    (hvolumes : (listAt spec "volumes").all volumeSeen = true) (hc : c ∈ containersOf spec)
    (hnamed : Named c) (hdrop : ∀ ms, setting c ["capabilities", "drop"] ≠ some (.map ms)) :
    Restricted spec c := by
  obtain ⟨name, hname⟩ := Option.isSome_iff_exists.mp hnamed
  have hcmap := Value.isMap_of_get (Value.member_eq_some.mp hname).1
  simp only [podSecurity, List.append_eq_nil_iff] at hnil
  obtain ⟨⟨⟨⟨⟨⟨⟨⟨⟨hnonRoot, hpodRoot⟩, hroot⟩, hescalation⟩, hdrops⟩, hadds⟩, hseccomp⟩, hprivileged⟩,
    hhost⟩, hpath⟩ := hnil
  constructor
  case runAsNonRoot =>
    have hquiet := h.not_breaks hnonRoot hc hnamed
    obtain ⟨ms, hms⟩ := hcmap
    obtain ⟨ns, hns⟩ := h.spec_map
    apply effective_of_objectGet (d := .bool false) ⟨ms, hms⟩ ⟨ns, hns⟩ _ (by decide) (by decide)
    rw [hms, hns, objectGetPath_map, objectGetPath_map] at hquiet ⊢
    exact congrArg some (ne_eq_false_iff.mp hquiet _ rfl)
  case runAsUser =>
    intro heffective
    rcases Option.or_eq_some_iff.mp heffective with hset | ⟨-, hset⟩
    · have hquiet := h.not_breaks hroot hc hnamed
      rw [dot_of_setting hset] at hquiet
      exact absurd hquiet (by decide)
    · have hquiet := h.podRule_nil.mp hpodRoot
      rw [dot_of_setting hset] at hquiet
      exact absurd hquiet (by decide)
  case allowPrivilegeEscalation =>
    have hquiet := h.not_breaks hescalation hc hnamed
    obtain ⟨ms, rfl⟩ := hcmap
    rw [objectGetPath_map] at hquiet
    have hfalse := ne_eq_false_iff.mp hquiet _ rfl
    cases hfind : (Value.map ms).find ["securityContext", "allowPrivilegeEscalation"] with
    | none =>
      rw [hfind] at hfalse
      cases hfalse
    | some w =>
      rw [hfind, Option.getD_some] at hfalse
      subst hfalse
      exact Value.memberAt_eq_some hfind (by decide)
  case drop =>
    have hquiet := h.not_breaks hdrops hc hnamed
    obtain ⟨ms, rfl⟩ := hcmap
    rw [noItems, objectGetPath_map, Bool.not_eq_false', mem_iff] at hquiet
    cases hfind : (Value.map ms).find ["securityContext", "capabilities", "drop"] with
    | none =>
      rw [hfind] at hquiet
      cases hquiet
    | some w =>
      rw [hfind, Option.getD_some] at hquiet
      cases w with
      | list caps => exact ⟨caps, Value.memberAt_eq_some hfind nofun, hquiet⟩
      | map ns => exact absurd (Value.memberAt_eq_some hfind nofun) (hdrop ns)
      | null | bool _ | num _ | str _ => cases hquiet
  case add =>
    intro caps hcaps cap hcap
    have hquiet := h.addsNone_nil.mp hadds c (h.mem hc) (name_isSome hnamed)
    obtain ⟨ms, rfl⟩ := hcmap
    rw [noItems, objectGetPath_map, Value.find_of_memberAt hcaps, List.any_eq_false] at hquiet
    simpa using hquiet cap hcap
  case seccomp =>
    have hquiet := h.not_breaks hseccomp hc hnamed
    obtain ⟨ms, hms⟩ := hcmap
    obtain ⟨ns, hns⟩ := h.spec_map
    have heffective : ∀ t, objectGetPath (some c) ["securityContext", "seccompProfile", "type"]
        (objectGetPath (some spec) ["securityContext", "seccompProfile", "type"] (some (.str ""))) =
          some (.str t) → t ≠ "" → effective spec c ["seccompProfile", "type"] = some (.str t) :=
      fun t ht hne => effective_of_objectGet ⟨ms, hms⟩ ⟨ns, hns⟩ ht (by simpa using hne) nofun
    rw [hms, hns, objectGetPath_map, objectGetPath_map] at hquiet heffective
    have hin := of_decide_eq_false hquiet
    rw [not_not, List.mem_cons, List.mem_singleton] at hin
    rw [hms, hns]
    rcases hin with hin | hin
    · exact ⟨_, by simp, heffective _ (congrArg some hin) (by decide)⟩
    · exact ⟨_, by simp, heffective _ (congrArg some hin) (by decide)⟩
  case privileged =>
    intro hset
    have hquiet := h.not_breaks hprivileged hc hnamed
    rw [dot_of_setting hset] at hquiet
    exact absurd hquiet (by decide)
  case hostNamespaces =>
    intro field hfield hset
    rw [noHostNamespaces, List.flatMap_eq_nil_iff] at hhost
    have hquiet := h.podRule_nil.mp (hhost field hfield)
    have hdot : dot spec field = some (.bool true) := (Value.member_eq_some.mp hset).1
    rw [hdot] at hquiet
    exact absurd hquiet (by decide)
  case hostPath =>
    intro v hv
    by_contra hsome
    obtain ⟨path, hpathAt⟩ := Option.ne_none_iff_exists'.mp hsome
    have hseen := List.all_eq_true.mp hvolumes v hv
    rw [volumeSeen, hpathAt, Option.all_some, Bool.and_eq_true, decide_eq_true_eq] at hseen
    obtain ⟨hfalse, hvname⟩ := hseen
    obtain ⟨vname, hvname⟩ := Option.isSome_iff_exists.mp hvname
    have hvname : dot v "name" = some vname := hvname
    have hdot : dot v "hostPath" = some path := (Value.member_eq_some.mp hpathAt).1
    have hitems : v ∈ items (objectGet (some spec) "volumes" noItems) := by
      obtain ⟨ms, hms⟩ := h.spec_map
      unfold listAt at hv
      split at hv
      · next vs hvs =>
        rw [hms] at hvs
        rw [hms, noItems, objectGet_map, hvs]
        exact hv
      · cases hv
    have hquiet := List.any_eq_false.mp (h.noHostPath_nil.mp hpath) v hitems
    rw [hdot, hvname] at hquiet
    exact hquiet (by simpa [truthy, ne] using hfalse)

/-- An object whose settings are seen has restricted containers when it has no findings. -/
theorem guarded_of_seen (h : (shape obj).Seen) : Guarded obj := by
  intro registries objects hobj hnot spec hspec c hc hnamed
  unfold Shape.Seen shape at h
  rw [hspec, Option.getD_some] at h
  dsimp only [Shape.lists] at h
  obtain ⟨k, hk, hlisted⟩ := listed_of_mem hc
  have hlists : Listed.list ∈ ["containers", "initContainers", "ephemeralContainers"].map
      fun k => listed (spec.get k) := List.mem_map.mpr ⟨k, hk, hlisted⟩
  obtain ⟨hname, hother, hvolumes, hdrops⟩ := h.resolve_left fun hno => hno hlists
  simp only [List.mem_cons, List.not_mem_nil, or_false, not_or] at hother
  have hsight : InSight obj spec := ⟨nameable_of_template hspec hname, isMap_of_listed hlisted,
    allContainers_eq (isMap_of_listed hlisted) (Ne.symm hother.1) (Ne.symm hother.2.1) (Ne.symm hother.2.2)⟩
  refine hsight.restricted (podSecurity_eq_nil hobj hnot hspec) hvolumes hc hnamed ?_
  intro ms hms
  have hdrop := List.all_eq_true.mp hdrops c hc
  rw [hms] at hdrop
  cases hdrop

end Sound

section Hidden
variable {obj spec : Value}

instance {P : Listed → Prop} [DecidablePred P] : Decidable (∀ l, P l) :=
  decidable_of_iff (P .absent ∧ P .list ∧ P .other)
    ⟨fun ⟨ha, hl, ho⟩ l => by cases l <;> assumption, fun h => ⟨h _, h _, h _⟩⟩

/-- The rules look at no container of the object. -/
def Shape.blind (s : Shape) : Bool := !s.named || decide (.other ∈ s.lists)

/-- A container that keeps the rules, except where it is not seen. -/
def hiddenContainer (s : Shape) : Value :=
  .map [("name", .str "app"), ("securityContext", .map [
    ("runAsNonRoot", .bool true), ("allowPrivilegeEscalation", .bool false),
    ("capabilities", .map [("drop",
      if s.drops then .list [.str "ALL"] else .map [("0", .str "ALL")])]),
    ("seccompProfile", .map [("type", .str "RuntimeDefault")]), ("privileged", .bool s.blind)])]

def listedMember (k : String) (c : Value) : Listed → List (String × Value)
  | .absent => []
  | .list => [(k, .list [c])]
  | .other => [(k, .null)]

def hiddenSpec (s : Shape) : Value :=
  .map (listedMember "containers" (hiddenContainer s) s.containers ++
    listedMember "initContainers" (hiddenContainer s) s.initContainers ++
    listedMember "ephemeralContainers" (hiddenContainer s) s.ephemeralContainers ++
    if s.volumes then [] else [("volumes", Value.list [Value.map [("hostPath", Value.map [])]])])

def hiddenObject (s : Shape) : Value :=
  .map [("kind", .str "Pod"), ("metadata", .map (if s.named then [("name", .str "web")] else [])),
    ("spec", hiddenSpec s)]

/-- A setting that the rules do not allow. -/
def Breaks (spec c : Value) : Prop :=
  setting c ["privileged"] = some (.bool true) ∨
    (setting c ["capabilities", "drop"]).any isMap = true ∨
    ∃ v ∈ listAt spec "volumes", v.member "hostPath" ≠ none

instance (spec c : Value) : Decidable (Breaks spec c) := inferInstanceAs (Decidable (_ ∨ _ ∨ _))

theorem not_restricted_of_breaks {spec c : Value} (h : Breaks spec c) : ¬ Restricted spec c := by
  intro hrestricted
  rcases h with hprivileged | hdrop | ⟨v, hv, hpath⟩
  · exact hrestricted.privileged hprivileged
  · obtain ⟨caps, hcaps, -⟩ := hrestricted.drop
    rw [hcaps] at hdrop
    cases hdrop
  · exact hpath (hrestricted.hostPath v hv)

/-- Each shape that is not seen has an object that breaks a rule and has no finding. -/
theorem hiddenObject_spec : ∀ (named : Bool) (a b c : Listed) (volumes drops : Bool),
    ¬ (Shape.mk named a b c volumes drops).Seen →
      shape (hiddenObject ⟨named, a, b, c, volumes, drops⟩) = ⟨named, a, b, c, volumes, drops⟩ ∧
      (∀ f ∈ finding [] [hiddenObject ⟨named, a, b, c, volumes, drops⟩], f.rule ∉ podSecurityRules) ∧
      podTemplate (hiddenObject ⟨named, a, b, c, volumes, drops⟩) =
        some (hiddenSpec ⟨named, a, b, c, volumes, drops⟩) ∧
      hiddenContainer ⟨named, a, b, c, volumes, drops⟩ ∈
        containersOf (hiddenSpec ⟨named, a, b, c, volumes, drops⟩) ∧
      ((hiddenContainer ⟨named, a, b, c, volumes, drops⟩).member "name").isSome = true ∧
      Breaks (hiddenSpec ⟨named, a, b, c, volumes, drops⟩)
        (hiddenContainer ⟨named, a, b, c, volumes, drops⟩) := by
  decide +kernel

theorem notFound_of_nil (hspec : podTemplate obj = some spec) (hnil : podSecurity ⟨obj, spec⟩ = []) :
    NotFound [] [obj] obj := by
  intro f hf _ _ hrule
  obtain ⟨p, hp, hfind⟩ := List.mem_flatMap.mp hf
  obtain ⟨obj', hobj, hpod⟩ := List.mem_filterMap.mp hp
  obtain rfl := List.mem_singleton.mp hobj
  rw [podSpec_of_template hspec] at hpod
  obtain rfl := Option.some.inj hpod
  rcases List.mem_append.mp hfind with hfind | hfind
  · rw [hnil] at hfind
    cases hfind
  · have hdisjoint : ∀ r ∈ goldenPathRules, r ∉ podSecurityRules := by decide
    exact hdisjoint _ (foundBy_goldenPath hfind).1 hrule

theorem podSecurity_eq_nil_of_not_shown (hspec : podTemplate obj = some spec) (h : ¬ Shown obj spec) :
    podSecurity ⟨obj, spec⟩ = [] := by
  by_cases hname : (shape obj).named = true
  · rw [(nameable_of_template hspec hname).podSecurity_nil]
    obtain ⟨hpod, hcontainers⟩ := not_or.mp (not_and.mp h hname)
    refine ⟨Bool.eq_false_of_not_eq_true hpod, fun c hc hnamed => Bool.eq_false_of_not_eq_true fun hbreaks => ?_⟩
    obtain ⟨hlists, hc⟩ := (mem_items_allContainers hspec).mp hc
    exact hcontainers ⟨hlists, c, hc, hnamed, hbreaks⟩
  · rw [List.eq_nil_iff_forall_not_mem]
    intro f hf
    apply hname
    rw [shape, (foundBy_podSecurity hf).2.2]
    rfl

/-- A Deployment with a privileged container, whose init containers are written as null. -/
def nullInit : Value :=
  .map [("apiVersion", .str "apps/v1"), ("kind", .str "Deployment"),
    ("metadata", .map [("name", .str "web")]),
    ("spec", .map [("template", .map [("spec", .map [
      ("containers", .list [.map [("name", .str "app"), ("image", .str "acme/web:1"),
        ("securityContext", .map [("privileged", .bool true)])]]),
      ("initContainers", .null)])])])]

end Hidden

end Kubeast.Gate
