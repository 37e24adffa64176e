import Kubeast.Render.Kept

/-! When two workloads have an object of one kind, namespace and name. -/
namespace Kubeast.Render
open Sorted

section Names
variable {r r' : Renderer} {kind name : String}

/-- Resources of one type whose ids, joined to the services' names, are the same text. -/
def SameJoin (w w' : Workload) : Prop :=
  ∃ row ∈ w.resources.rows, ∃ row' ∈ w'.resources.rows, row.2.type = row'.2.type ∧
    row.2.type ∈ ["secret", "route"] ∧ secretName w.name row.1 = secretName w'.name row'.1

theorem filesName_injective (h : filesName r = filesName r') : r.name = r'.name := by
  have hlist := congrArg String.toList h
  simp only [filesName, String.toList_append] at hlist
  exact String.toList_inj.mp (List.append_cancel_right hlist)

/-- One name of one kind is of one service, or of two resources with the same join. -/
theorem expected_clash (hkind : kind ∈ madeKinds) (h : Expected r kind name) (h' : Expected r' kind name) :
    r.name = r'.name ∨ SameJoin r.workload r'.workload := by
  have hservice (h : name = r.name) (h' : name = r'.name) :
      r.name = r'.name ∨ SameJoin r.workload r'.workload := Or.inl (h.symm.trans h')
  simp only [madeKinds, List.mem_append, List.mem_singleton] at hkind
  rcases hkind with rfl | rfl | rfl | rfl | rfl | rfl | rfl | rfl | rfl
  · obtain ⟨row, hrow, htype, hname⟩ := h
    obtain ⟨row', hrow', htype', hname'⟩ := h'
    exact Or.inr ⟨row, hrow, row', hrow', htype.trans htype'.symm, by simp [htype],
      hname.symm.trans hname'⟩
  · have hfiles : name = filesName r := h
    have hfiles' : name = filesName r' := h'
    exact Or.inl (filesName_injective (hfiles.symm.trans hfiles'))
  · exact hservice h h'
  · obtain ⟨row, hrow, htype, hname⟩ := h
    obtain ⟨row', hrow', htype', hname'⟩ := h'
    exact Or.inr ⟨row, hrow, row', hrow', htype.trans htype'.symm, by simp [htype],
      hname.symm.trans hname'⟩
  · exact hservice h h'
  · exact hservice h h'
  · exact hservice h h'
  · exact hservice h h'
  · exact hservice h h'

end Names

section Pairs
variable {lib : ScoreGo} {yaml : Yaml} {i i' : Input} {res res' : Result}

/-- The objects of a result without raw files: the renderer's own, with their kinds and names. -/
theorem objects_without_raw (hlocal : LocalOverride lib) (hraw : i.raw = [])
    (h : render lib yaml i = .ok res) : ∃ ns, i.env.namespaceFor i.workload.name = .ok ns ∧
      ∀ o ∈ res.objects, ∃ kind ∈ madeKinds, ∃ name, Tagged (i.renderer lib ns) kind name o ∧
        o.find ["metadata", "namespace"] = some (.str ns) ∧ Expected (i.renderer lib ns) kind name := by
  obtain ⟨ns, built, hns, hbuilt, hobjects, -⟩ := render_eq_ok h
  have hnamed := named_rendered hbuilt
  have hkeeps := keeps_applyPatches hlocal yaml i.patches built.objects
  have htagged : ∀ o ∈ built.objects, ∃ kind name, Tagged (i.renderer lib ns) kind name o := by
    intro o ho
    obtain ⟨kind, -, name, hmade, -⟩ := hnamed.made o ho
    exact ⟨kind, name, hmade.tagged.1⟩
  refine ⟨ns, hns, fun o' ho' => ?_⟩
  rw [hobjects, hraw] at ho'
  have hmem := (perm_sortBy _ _).mem_iff.mp ho'
  rw [addRaw, List.foldl_nil, List.append_nil] at hmem
  obtain ⟨o, ho, hoo'⟩ := (idents_keep hkeeps htagged).2 o' hmem
  obtain ⟨kind, hkind, name, hmade, hexpected⟩ := hnamed.made o ho
  exact ⟨kind, hkind, name, hmade.tagged.1.keeps hoo', (hoo' _ (by decide)).trans hmade.tagged.2, hexpected⟩

/-- Workloads in different namespaces do not collide, and neither do different services whose secret
and route resources have different joined names. -/
theorem no_collision (hlocal : LocalOverride lib) (hraw : i.raw = []) (hraw' : i'.raw = [])
    (h : render lib yaml i = .ok res) (h' : render lib yaml i' = .ok res')
    (hapart : i.env.namespaceFor i.workload.name ≠ i'.env.namespaceFor i'.workload.name ∨
      i.workload.name ≠ i'.workload.name ∧ ¬ SameJoin i.workload i'.workload) :
    ∀ o ∈ res.objects, ∀ o' ∈ res'.objects,
      ¬ (o.get "kind" = o'.get "kind" ∧
        o.find ["metadata", "namespace"] = o'.find ["metadata", "namespace"] ∧
        o.find ["metadata", "name"] = o'.find ["metadata", "name"]) := by
  obtain ⟨ns, hns, hobjects⟩ := objects_without_raw hlocal hraw h
  obtain ⟨ns', hns', hobjects'⟩ := objects_without_raw hlocal hraw' h'
  intro o ho o' ho' ⟨hkinds, hnamespaces, hnames⟩
  obtain ⟨kind, hkind, name, htag, hone, hexpected⟩ := hobjects o ho
  obtain ⟨kind', -, name', htag', hone', hexpected'⟩ := hobjects' o' ho'
  rw [htag.kind_eq, htag'.kind_eq] at hkinds
  obtain rfl := Value.str.inj (Option.some.inj hkinds)
  rw [htag.name_eq, htag'.name_eq] at hnames
  obtain rfl := Value.str.inj (Option.some.inj hnames)
  rw [hone, hone'] at hnamespaces
  obtain rfl := Value.str.inj (Option.some.inj hnamespaces)
  rcases hapart with hapart | ⟨hservices, hjoins⟩
  · exact hapart (hns.trans hns'.symm)
  · rcases expected_clash hkind hexpected hexpected' with hservice | hjoin
    · exact hservices hservice
    · exact hjoins hjoin

end Pairs

section Runs

/-- A workload with one container, and a secret resource that it uses. -/
def secretWorkload (service id : String) (hid : id ≠ "" ∧ id.toList.all labelChar = true) : Workload where
  metadata := .map [("name", .str service)]
  containers := ⟨[("main", { smallContainer with
    vars := ⟨[("TOKEN", "$\x7bresources." ++ id ++ ".token\x7d")], List.nodup_singleton _⟩ })],
    List.nodup_singleton _⟩
  ports := Table.empty
  resources := ⟨[(id, ⟨"secret", none, .map [("key", .str "apps/token")]⟩)], List.nodup_singleton _⟩
  labels := by
    intro row hrow
    rw [List.mem_singleton.mp hrow]
    exact hid

def storeEnv (name ns : String) : EnvFile :=
  { smallEnv with
    name := name
    namespace_ := ns
    secretStore := some ⟨"", "store", ""⟩
    capabilities := ⟨false, true, false⟩ }

def inputOf (w : Workload) (f : EnvFile) : Input := ⟨w, plainExt, [], f.filled, Table.empty, [], []⟩

def collides (res res' : Result) : Bool :=
  res.objects.any fun o => res'.objects.any fun o' =>
    decide (o.get "kind" = o'.get "kind" ∧
      o.find ["metadata", "namespace"] = o'.find ["metadata", "namespace"] ∧
      o.find ["metadata", "name"] = o'.find ["metadata", "name"])

def renderSmall (i : Input) : Except (List Message) Result := render mapsLib smallYaml i

def collideSmall (i i' : Input) : Bool :=
  match renderSmall i, renderSmall i' with
  | .ok res, .ok res' => collides res res'
  | _, _ => false

theorem results_of_collideSmall {i i' : Input} (h : collideSmall i i' = true) :
    ∃ res res', render mapsLib smallYaml i = .ok res ∧ render mapsLib smallYaml i' = .ok res' ∧
      collides res res' = true := by
  unfold collideSmall at h
  split at h
  · next res res' hres hres' => exact ⟨res, res', hres, hres', h⟩
  · cases h

theorem fill_of_problems {f : EnvFile} (h : f.problems f.filled = []) : fill f = .ok f.filled := by
  rw [fill, if_pos h]

def web : Workload := secretWorkload "web" "db" (by decide)

/-- One service in two environments with one namespace, and two services whose names and environments,
and names and secrets, join to the same texts. -/
theorem workloads_collide :
    (fill (storeEnv "alpha" "apps") = .ok (storeEnv "alpha" "apps").filled ∧
      fill (storeEnv "beta" "apps") = .ok (storeEnv "beta" "apps").filled ∧
      ∃ res res', render mapsLib smallYaml (inputOf web (storeEnv "alpha" "apps")) = .ok res ∧
        render mapsLib smallYaml (inputOf web (storeEnv "beta" "apps")) = .ok res' ∧
        collides res res' = true) ∧
    fill (storeEnv "b-c" "") = .ok (storeEnv "b-c" "").filled ∧
    fill (storeEnv "c" "") = .ok (storeEnv "c" "").filled ∧
    ∃ res res', render mapsLib smallYaml
        (inputOf (secretWorkload "a" "b-x" (by decide)) (storeEnv "b-c" "")) = .ok res ∧
      render mapsLib smallYaml
        (inputOf (secretWorkload "a-b" "x" (by decide)) (storeEnv "c" "")) = .ok res' ∧
      collides res res' = true :=
  ⟨⟨fill_of_problems (by decide), fill_of_problems (by decide),
    results_of_collideSmall (by decide +kernel)⟩,
    fill_of_problems (by decide), fill_of_problems (by decide),
    results_of_collideSmall (by decide +kernel)⟩

theorem no_collision_web : ∃ res res',
    render mapsLib smallYaml (inputOf web (storeEnv "alpha" "")) = .ok res ∧
    render mapsLib smallYaml (inputOf web (storeEnv "beta" "")) = .ok res' ∧
    ∀ o ∈ res.objects, ∀ o' ∈ res'.objects,
      ¬ (o.get "kind" = o'.get "kind" ∧
        o.find ["metadata", "namespace"] = o'.find ["metadata", "namespace"] ∧
        o.find ["metadata", "name"] = o'.find ["metadata", "name"]) := by
  have hok : (renderSmall (inputOf web (storeEnv "alpha" ""))).isOk = true := by decide +kernel
  have hok' : (renderSmall (inputOf web (storeEnv "beta" ""))).isOk = true := by decide +kernel
  have hns : (storeEnv "alpha" "").filled.namespaceFor web.name ≠
      (storeEnv "beta" "").filled.namespaceFor web.name := by
    intro h
    have hsame : ((storeEnv "alpha" "").filled.namespaceFor web.name).toOption =
        ((storeEnv "beta" "").filled.namespaceFor web.name).toOption := congrArg _ h
    have hdiffer : ((storeEnv "alpha" "").filled.namespaceFor web.name).toOption ≠
        ((storeEnv "beta" "").filled.namespaceFor web.name).toOption := by decide +kernel
    exact hdiffer hsame
  have h := Transition.eq_ok_of_isOk (s := ⟨[], [], []⟩) hok
  have h' := Transition.eq_ok_of_isOk (s := ⟨[], [], []⟩) hok'
  exact ⟨_, _, h, h', no_collision local_mapsLib rfl rfl h h' (Or.inl hns)⟩

end Runs
end Kubeast.Render
