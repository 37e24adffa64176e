import Kubeast.Render.Objects
import Kubeast.Render.Patches
import Mathlib.Data.Prod.Lex
import Kubeast.Foundation.Transition
import Kubeast.Render.EnvFaithful

/-! The objects of one workload in one environment (`internal/render/render.go`). -/
namespace Kubeast.Render
open Sorted

structure Input where
  workload : Workload
  ext : Ext
  notes : List Message
  env : Env
  peers : Dict String (Dict String ℤ)
  patches : List File
  raw : List File

structure Result where
  objects : List Value
  notes : List Message
  clusterScoped : List Value

/-- The apply order: what others refer to first. -/
def kindOrder : List String := [
  "ServiceAccount", "ConfigMap", "ExternalSecret", "Service", "Deployment", "HorizontalPodAutoscaler",
  "PodDisruptionBudget", "HTTPRoute", "ServiceMonitor"]

/-- A kind that is not listed comes last. -/
def sortKey (o : Value) : ℕ ×ₗ String ×ₗ String :=
  toLex (kindOrder.idxOf (kindOf o), toLex (kindOf o, objName o))

def sortObjects (objects : List Value) : List Value := sortBy sortKey objects

section Run
variable (r : Renderer)

/-- The passes before the objects: the later ones read what these provide. -/
def prepare : Built (Option Profile × Provided) := do
  let (profile, seen) ← Built.listen (profile r)
  let p ← provision r seen.errs
  pure (profile, p)

def containersWithFiles (p : Provided) : Built (FilesOut × List Value) := do
  let files ← files r p
  let containers ← containers r p files
  pure (files, containers)

/-- The passes that make the objects. The containers decide which secrets, volumes and whether a
temporary directory are used. -/
def buildObjects (profile : Option Profile) (p : Provided) : Built Unit := do
  let ((files, containers), seen) ← Built.listen (containersWithFiles r p)
  serviceAccount r p
  let _ ← externalSecrets r p seen.used
  service r
  deployment r p containers files profile seen
  autoscaler r
  disruptionBudget r
  serviceMonitor r

/-- The objects made by the renderer, before the patches. -/
def rendered : Except (List Message) Effects :=
  let first := prepare r
  if first.effects.errs ≠ [] then .error first.effects.errs
  else
    let built := first.effects ++ (buildObjects r first.value.1 first.value.2).effects
    if built.errs ≠ [] then .error built.errs else .ok built

end Run

def Input.renderer (i : Input) (lib : ScoreGo) (ns : String) : Renderer :=
  ⟨lib, i.workload, i.ext, i.env, i.peers, ns⟩

/-- `Render`. -/
def render (lib : ScoreGo) (yaml : Yaml) (i : Input) : Except (List Message) Result :=
  match i.env.namespaceFor i.workload.name with
  | .error e => .error [e]
  | .ok ns =>
    let r := i.renderer lib ns
    match rendered r with
    | .error errs => .error errs
    | .ok built =>
      let (patched, errs) := applyPatches lib yaml i.patches built.objects
      let raw := addRaw r yaml i.raw patched
      if errs ++ raw.errs ≠ [] then .error (errs ++ raw.errs)
      else .ok {
        objects := sortObjects (patched ++ raw.objects)
        notes := i.notes ++ built.notes ++ raw.notes
        clusterScoped := sortObjects raw.clusterScoped }

end Kubeast.Render

/-! What each pass of the renderer adds, and what it leaves alone. -/
namespace Kubeast.Render
open Sorted
open Transition (bind_eq_ok)

section Silent
variable {α β : Type} {x : Built α} {f : α → Built β}

/-- A step that may only fail or note something. -/
structure Silent (x : Built α) : Prop where
  objects : x.effects.objects = []
  used : x.effects.used = []
  usedVolumes : x.effects.usedVolumes = []
  needTmp : x.effects.needTmp = false

theorem silent_pure (a : α) : Silent (pure a : Built α) := ⟨rfl, rfl, rfl, rfl⟩

theorem silent_fail (format : String) (args : List Value) (causes : List Message) :
    Silent (Built.fail format args causes) := ⟨rfl, rfl, rfl, rfl⟩

theorem silent_ofExcept (x : Except (List Message) α) : Silent (Built.ofExcept x) := by
  cases x <;> exact ⟨rfl, rfl, rfl, rfl⟩

theorem Silent.bind (h : Silent x) (h' : ∀ a, Silent (f a)) : Silent (x >>= f) where
  objects := by rw [bind_effects, append_objects, h.objects, (h' _).objects, List.append_nil]
  used := by rw [bind_effects, append_used, h.used, (h' _).used, List.append_nil]
  usedVolumes := by
    rw [bind_effects, append_usedVolumes, h.usedVolumes, (h' _).usedVolumes, List.append_nil]
  needTmp := by rw [bind_effects, append_needTmp, h.needTmp, (h' _).needTmp, Bool.or_false]

/-- An error in place of a value. -/
theorem silent_refusal (format : String) (args : List Value) (causes : List Message) (a : α) :
    Silent (Built.fail format args causes >>= fun _ => pure a) :=
  (silent_fail format args causes).bind fun _ => silent_pure a

theorem silent_forEach {l : List α} {f : α → Built (Option β)} (h : ∀ a ∈ l, Silent (f a)) :
    Silent (Built.forEach l f) := by
  induction l with
  | nil => exact silent_pure []
  | cons a l ih =>
    have ih := ih fun b hb => h b (List.mem_cons_of_mem a hb)
    exact (h a (List.mem_cons_self ..)).bind fun _ => ih.bind fun _ => silent_pure _

theorem silent_profile (r : Renderer) : Silent (profile r) := by
  unfold profile
  split
  · exact silent_pure _
  · split
    · exact silent_pure _
    · exact silent_refusal ..

theorem silent_resources (r : Renderer) (cname : String) (cr : Option ContainerResources) :
    Silent (resources r cname cr) := by
  have hlimit (request limit : Option String) : Silent (memoryLimit r cname request limit) := by
    unfold memoryLimit
    dsimp only
    split
    · split
      · exact silent_pure _
      · exact silent_refusal ..
      · exact silent_refusal ..
    · exact silent_pure _
  exact (hlimit _ _).bind fun _ => silent_pure _

theorem silent_probe (cname name : String) (given : ContainerProbe) : Silent (probe cname name given) := by
  unfold probe
  split
  · exact silent_refusal ..
  · exact silent_pure _
  · exact silent_pure _
  · exact silent_refusal ..

end Silent

section Routes
variable {r : Renderer} {p : Provided} {id class_ : String} {res : Resource} {params : Params}

/-- The route object of a resource; its port is one of the service's. -/
def IsRoute (r : Renderer) (id : String) (o : Value) : Prop :=
  ∃ gw host path port, o = httpRoute r id gw host path port ∧ port ∈ r.ownPorts.rows.map Prod.snd

theorem port_of_routeParams {host path : String} {port : ℤ}
    (h : routeParams r id params = .ok (host, path, port)) : port ∈ r.ownPorts.rows.map Prod.snd := by
  unfold routeParams at h
  cases honly : onlyParams id "route" params ["host", "port", "path"] with
  | error e => rw [honly] at h; cases h
  | ok u =>
    cases hboth : both (stringParam id "route" params "host") (stringParam id "route" params "path") with
    | error e => rw [honly, hboth] at h; cases h
    | ok hp =>
      obtain ⟨host', path'⟩ := hp
      rw [honly, hboth] at h
      simp only [bind, Except.bind, pure, Except.pure, failed] at h
      split at h
      · cases h
      · split at h
        · cases h
        · split at h
          · cases h
          · next found =>
            obtain ⟨-, hmem⟩ := Option.filter_eq_some_iff.mp found
            cases h
            exact of_decide_eq_true hmem

/-- What a route resource adds. -/
theorem objects_route : (route r id params).effects.objects = [] ∨
    ∃ o, (route r id params).effects.objects = [o] ∧ IsRoute r id o := by
  unfold route
  cases hparams : routeParams r id params with
  | error e => exact Or.inl rfl
  | ok found =>
    obtain ⟨host, path, port⟩ := found
    have hport := port_of_routeParams hparams
    simp only [Built.ofExcept, bind_effects, append_objects, pure_effects]
    unfold attach
    split
    · exact Or.inl rfl
    · split
      · exact Or.inl rfl
      · next gw _ => exact Or.inr ⟨_, rfl, ⟨gw, host, path, port, rfl, hport⟩⟩

/-- What a resource adds. -/
theorem objects_provisionOne : (provisionOne r p id res).effects.objects = [] ∨
    res.type = "route" ∧ ∃ o, (provisionOne r p id res).effects.objects = [o] ∧ IsRoute r id o := by
  unfold provisionOne
  dsimp only
  split
  · exact Or.inl rfl
  · split
    · exact Or.inl rfl
    · split
      · exact Or.inl rfl
      · unfold provisionAs
        split
        · exact Or.inl (silent_ofExcept _).objects
        · exact Or.inl (silent_ofExcept _).objects
        · exact Or.inl (silent_ofExcept _).objects
        · exact Or.inl (silent_ofExcept _).objects
        · exact Or.inl (silent_ofExcept _).objects
        · next htype => exact objects_route.imp_right fun h => ⟨htype, h⟩
        · exact Or.inl rfl

/-- The routes of a run of resources, each by the resource it is of. -/
theorem objects_provisionAll (r : Renderer) (rows : List (String × Resource)) (p : Provided) :
    ∃ routes : List String, routes.Sublist (rows.map Prod.fst) ∧
      (∀ id ∈ routes, ∃ row ∈ rows, row.1 = id ∧ row.2.type = "route") ∧
      List.Forall₂ (IsRoute r) routes (provisionAll r rows p).effects.objects := by
  induction rows generalizing p with
  | nil => exact ⟨[], List.Sublist.refl _, by simp, List.Forall₂.nil⟩
  | cons row rows ih =>
    obtain ⟨id, res⟩ := row
    obtain ⟨routes, hsub, htype, hmade⟩ := ih ((provisionOne r p id res).value.elim p (p.put id))
    have hobjects : (provisionAll r ((id, res) :: rows) p).effects.objects =
        (provisionOne r p id res).effects.objects ++
          (provisionAll r rows ((provisionOne r p id res).value.elim p (p.put id))).effects.objects := rfl
    have hrest : ∀ id' ∈ routes, ∃ row ∈ (id, res) :: rows, row.1 = id' ∧ row.2.type = "route" := by
      intro id' hid'
      obtain ⟨row, hrow, hfacts⟩ := htype id' hid'
      exact ⟨row, List.mem_cons_of_mem _ hrow, hfacts⟩
    rw [hobjects]
    have hturn : (provisionOne r p id res).effects.objects = [] ∨ _ := objects_provisionOne
    obtain hnone | ⟨hroute, o, hone, hisRoute⟩ := hturn
    · rw [hnone]
      exact ⟨routes, hsub.cons id, hrest, hmade⟩
    · rw [hone]
      refine ⟨id :: routes, hsub.cons_cons id, ?_, List.Forall₂.cons hisRoute hmade⟩
      intro id' hid'
      rcases List.mem_cons.mp hid' with rfl | hid'
      · exact ⟨_, List.mem_cons_self .., rfl, hroute⟩
      · exact hrest id' hid'

end Routes

section Provided
variable {α β : Type} {r : Renderer} {p : Provided} {id class_ : String} {res : Resource}
  {params : Params} {v : Provision} {sr : SecretRes}

theorem dns_ne_secret : dns r id params ≠ .ok (.secret sr) := by
  intro h
  obtain ⟨-, -, h⟩ := bind_eq_ok.mp h
  obtain ⟨host, -, h⟩ := bind_eq_ok.mp h
  dsimp only at h
  split at h
  · cases h
  · split at h <;> cases h

theorem servicePort_ne_secret : servicePort r id params ≠ .ok (.secret sr) := by
  intro h
  obtain ⟨-, -, h⟩ := bind_eq_ok.mp h
  obtain ⟨workload, -, h⟩ := bind_eq_ok.mp h
  split at h
  · cases h
  · split at h
    · split at h <;> cases h
    · split at h <;> cases h

theorem volume_ne_secret : volume id params ≠ .ok (.secret sr) := by
  intro h
  obtain ⟨-, -, h⟩ := bind_eq_ok.mp h
  obtain ⟨⟨size, medium⟩, -, h⟩ := bind_eq_ok.mp h
  dsimp only at h
  split at h <;> cases h

theorem serviceAccountResource_ne_secret :
    serviceAccountResource r id p class_ params ≠ .ok (.secret sr) := by
  intro h
  unfold serviceAccountResource at h
  split at h
  · cases h
  · split at h
    · obtain ⟨-, -, h⟩ := bind_eq_ok.mp h
      obtain ⟨kubeAPI, -, h⟩ := bind_eq_ok.mp h
      cases h
    · obtain ⟨-, -, h⟩ := bind_eq_ok.mp h
      obtain ⟨kubeAPI, -, h⟩ := bind_eq_ok.mp h
      obtain ⟨arn, -, h⟩ := bind_eq_ok.mp h
      cases h
    · cases h

theorem store_of_secret (h : secret r id class_ params = .ok v) : r.env.secretStore.isSome = true := by
  unfold secret at h
  split at h
  · cases h
  · obtain ⟨-, -, h⟩ := bind_eq_ok.mp h
    obtain ⟨key, -, h⟩ := bind_eq_ok.mp h
    split at h
    · cases h
    · obtain ⟨properties, -, h⟩ := bind_eq_ok.mp h
      split at h
      · cases h
      · split at h
        · cases h
        · next hstore => simpa [Option.isSome_iff_ne_none] using hstore

/-- A secret is provided by a secret resource, where the environment has a store. -/
theorem value_provisionOne (h : (provisionOne r p id res).value = some (.secret sr)) :
    res.type = "secret" ∧ r.env.secretStore.isSome = true := by
  have hexcept {x : Except (List Message) Provision} (h : (Built.ofExcept x).value = some (.secret sr)) :
      x = .ok (.secret sr) := by
    cases x with
    | error e => cases h
    | ok v => exact congrArg Except.ok (Option.some.inj h)
  unfold provisionOne at h
  dsimp only at h
  split at h
  · cases h
  · split at h
    · cases h
    · split at h
      · cases h
      · unfold provisionAs at h
        split at h
        · exact absurd (hexcept h) dns_ne_secret
        · exact absurd (hexcept h) servicePort_ne_secret
        · exact absurd (hexcept h) volume_ne_secret
        · next htype => exact ⟨htype, store_of_secret (hexcept h)⟩
        · exact absurd (hexcept h) serviceAccountResource_ne_secret
        · unfold route at h
          cases hparams : routeParams r id _ with
          | error e => rw [hparams] at h; cases h
          | ok found =>
            rw [hparams] at h
            cases h
        · cases h

/-- What the resources with these ids may have provided: outputs of theirs, and a secret for each
secret output. -/
structure Sound (r : Renderer) (rows : List (String × Resource)) (p : Provided) : Prop where
  outputs : ∀ id, (lookup p.outputs id).isSome = true → id ∈ rows.map Prod.fst
  secrets : ∀ id, (lookup p.secrets id).isSome = true ↔ lookup p.outputs id = some .secret
  secret : ∀ id, (lookup p.secrets id).isSome = true →
    (∃ row ∈ rows, row.1 = id ∧ row.2.type = "secret") ∧ r.env.secretStore.isSome = true

theorem lookup_set {V : Type} {m : Dict String V} {k k' : String} {v : V} :
    lookup (m.set k v) k' = if k = k' then some v else lookup m k' := by
  by_cases h : k = k'
  · rw [if_pos h, ← h, lookup, Dict.get_set_self]
    rfl
  · rw [if_neg h, lookup, Dict.get_set_ne h]
    rfl

/-- A resource with a new id. -/
theorem Sound.put {rows : List (String × Resource)} (h : Sound r rows p)
    (hid : id ∉ rows.map Prod.fst)
    (hv : ∀ sr, v = .secret sr → res.type = "secret" ∧ r.env.secretStore.isSome = true) :
    Sound r ((id, res) :: rows) (p.put id v) := by
  have hnone : lookup p.outputs id = none := by
    by_contra hsome
    exact hid (h.outputs id (Option.isSome_iff_ne_none.mpr hsome))
  have hsecret : lookup p.secrets id = none := by
    by_contra hsome
    have hout := (h.secrets id).mp (Option.isSome_iff_ne_none.mpr hsome)
    rw [hnone] at hout
    cases hout
  have hold : ∀ id', (lookup p.secrets id').isSome = true →
      (∃ row ∈ (id, res) :: rows, row.1 = id' ∧ row.2.type = "secret") ∧
        r.env.secretStore.isSome = true := by
    intro id' hid'
    obtain ⟨⟨row, hrow, hfacts⟩, hstore⟩ := h.secret id' hid'
    exact ⟨⟨row, List.mem_cons_of_mem _ hrow, hfacts⟩, hstore⟩
  constructor
  · intro id' hid'
    by_cases heq : id = id'
    · rw [heq]
      exact List.mem_cons_self ..
    · have hout : lookup (p.put id v).outputs id' = lookup p.outputs id' := by
        cases v <;> exact lookup_set.trans (if_neg heq)
      rw [hout] at hid'
      exact List.mem_cons_of_mem _ (h.outputs id' hid')
  · intro id'
    by_cases heq : id = id'
    · subst heq
      cases v <;> simp [Provided.put, lookup_set, hsecret]
    · cases v <;> simpa [Provided.put, lookup_set, heq] using h.secrets id'
  · intro id' hid'
    cases v with
    | secret sr =>
      obtain ⟨htype, hstore⟩ := hv sr rfl
      by_cases heq : id = id'
      · exact ⟨⟨_, List.mem_cons_self .., heq, htype⟩, hstore⟩
      · apply hold
        simpa [Provided.put, lookup_set, heq] using hid'
    | values members | volume source | account sa members => exact hold id' hid'

theorem Sound.mono {rows : List (String × Resource)} (h : Sound r rows p) (row : String × Resource) :
    Sound r (row :: rows) p where
  outputs id hid := List.mem_cons_of_mem _ (h.outputs id hid)
  secrets := h.secrets
  secret id hid := by
    obtain ⟨⟨row', hrow, hfacts⟩, hstore⟩ := h.secret id hid
    exact ⟨⟨row', List.mem_cons_of_mem _ hrow, hfacts⟩, hstore⟩

theorem sound_none (r : Renderer) : Sound r [] Provided.none where
  outputs id hid := by cases hid
  secrets id := by
    constructor
    · intro h
      cases h
    · intro h
      cases h
  secret id hid := by cases hid

/-- What a run of resources provides. -/
theorem sound_provisionAll {rows done : List (String × Resource)} (h : Sound r done p)
    (hnodup : ((rows.reverse ++ done).map Prod.fst).Nodup) :
    Sound r (rows.reverse ++ done) (provisionAll r rows p).value := by
  induction rows generalizing done p with
  | nil => exact h
  | cons row rows ih =>
    obtain ⟨id, res⟩ := row
    rw [List.reverse_cons, List.append_assoc] at hnodup ⊢
    apply ih _ hnodup
    have hid : id ∉ done.map Prod.fst := by
      rw [List.map_append] at hnodup
      exact (List.nodup_cons.mp hnodup.of_append_right).1
    cases hvalue : (provisionOne r p id res).value with
    | none => exact h.mono _
    | some v =>
      apply h.put hid
      rintro sr rfl
      exact value_provisionOne hvalue

theorem Sound.congr {rows rows' : List (String × Resource)} (h : Sound r rows p) (hperm : rows.Perm rows') :
    Sound r rows' p where
  outputs id hid := (hperm.map Prod.fst).mem_iff.mp (h.outputs id hid)
  secrets := h.secrets
  secret id hid := by
    obtain ⟨⟨row, hrow, hfacts⟩, hstore⟩ := h.secret id hid
    exact ⟨⟨row, hperm.mem_iff.mp hrow, hfacts⟩, hstore⟩

theorem perm_provisionRows (r : Renderer) : (provisionRows r).Perm r.workload.resources.rows :=
  (perm_sortBy _ _).trans (perm_sortBy _ _)

theorem nodup_provisionRows (r : Renderer) : ((provisionRows r).map Prod.fst).Nodup :=
  ((perm_provisionRows r).map Prod.fst).nodup_iff.mpr r.workload.resources.nodup

theorem unsupported_eq (h : (unsupported r).effects.errs = []) :
    (unsupported r).value = [] ∧ (unsupported r).effects.objects = [] := by
  have hsilent : Silent (unsupported r) := by
    apply silent_forEach
    intro row _
    split
    · exact silent_pure _
    · exact silent_refusal ..
  refine ⟨?_, hsilent.objects⟩
  rw [unsupported, forEach_value, List.flatMap_eq_nil_iff]
  intro row hrow
  have hone := errs_of_forEach h hrow
  split at hone
  · next hsome => rw [if_pos hsome]; rfl
  · cases hone

theorem provision_eq (h : (provision r []).effects.errs = []) :
    (provision r []).value = (provisionAll r (provisionRows r) Provided.none).value ∧
    (provision r []).effects.objects =
      (provisionAll r (provisionRows r) Provided.none).effects.objects := by
  have herrs : (unsupported r).effects.errs = [] := by
    rw [provision, bind_effects, append_errs, List.append_eq_nil_iff] at h
    exact h.1
  obtain ⟨hvalue, hobjects⟩ := unsupported_eq herrs
  simp only [provision, bind_value, bind_effects, append_objects, hvalue, hobjects, ne_eq,
    not_true_eq_false, or_self, if_false, List.nil_append, and_self]

/-- What a workload's resources provide, and the routes they add. -/
theorem prepare_spec (h : (prepare r).effects.errs = []) :
    Sound r r.workload.resources.rows (prepare r).value.2 ∧
    ∃ routes : List String, routes.Nodup ∧
      (∀ id ∈ routes, ∃ row ∈ r.workload.resources.rows, row.1 = id ∧ row.2.type = "route") ∧
      List.Forall₂ (IsRoute r) routes (prepare r).effects.objects := by
  obtain ⟨hbefore, hprovision⟩ : (profile r).effects.errs = [] ∧
      (provision r (profile r).effects.errs).effects.errs = [] := by
    simpa [prepare, Built.listen, Effects.none] using h
  have hvalue : (prepare r).value.2 = (provision r (profile r).effects.errs).value := rfl
  have hobjects : (prepare r).effects.objects =
      (provision r (profile r).effects.errs).effects.objects := by
    simp [prepare, Built.listen, Effects.none, (silent_profile r).objects]
  rw [hvalue, hobjects]
  rw [hbefore] at hprovision ⊢
  obtain ⟨hvalue, hobjects⟩ := provision_eq hprovision
  rw [hvalue, hobjects]
  constructor
  · have hnodup : (((provisionRows r).reverse ++ []).map Prod.fst).Nodup := by
      rw [List.append_nil, List.map_reverse, List.nodup_reverse]
      exact nodup_provisionRows r
    have hsound := sound_provisionAll (sound_none r) hnodup
    rw [List.append_nil] at hsound
    exact hsound.congr ((List.reverse_perm _).trans (perm_provisionRows r))
  · obtain ⟨routes, hsub, htype, hmade⟩ := objects_provisionAll r (provisionRows r) Provided.none
    refine ⟨routes, hsub.nodup (nodup_provisionRows r), ?_, hmade⟩
    intro id hid
    obtain ⟨row, hrow, hfacts⟩ := htype id hid
    exact ⟨row, (perm_provisionRows r).mem_iff.mp hrow, hfacts⟩

end Provided

section Quiet
variable {α β : Type} {x : Built α} {f : α → Built β} {r : Renderer} {p : Provided}

/-- A step that makes no object. -/
structure Quiet (x : Built α) : Prop where
  objects : x.effects.objects = []

theorem Silent.quiet (h : Silent x) : Quiet x := ⟨h.objects⟩

theorem quiet_pure (a : α) : Quiet (pure a : Built α) := ⟨rfl⟩

theorem Quiet.bind (h : Quiet x) (h' : ∀ a, Quiet (f a)) : Quiet (x >>= f) := by
  constructor
  rw [bind_effects, append_objects, h.objects, (h' x.value).objects, List.append_nil]

theorem quiet_forEach {l : List α} {f : α → Built (Option β)} (h : ∀ a, Quiet (f a)) :
    Quiet (Built.forEach l f) := by
  constructor
  rw [forEach_objects, List.flatMap_eq_nil_iff]
  exact fun a _ => (h a).objects

theorem quiet_subst (r : Scope) (text : String) : Quiet (subst r text) := ⟨rfl⟩

theorem quiet_envVars (r : Scope) (cname : String) (vars : Dict String String) :
    Quiet (envVars r cname vars) := by
  have hone (name text : String) : Quiet (envVar r cname name text) := by
    unfold envVar
    split
    · exact (silent_refusal ..).quiet
    · apply (quiet_subst r text).bind
      intro v
      cases v with
      | error causes => exact (silent_refusal ..).quiet
      | ok v => exact quiet_pure _
  unfold envVars
  apply Quiet.bind
  · exact quiet_forEach fun v => hone v.1 v.2
  · exact fun _ => quiet_pure _

theorem quiet_volumeMounts (cname : String) (c : Container) (files : FilesOut) :
    Quiet (volumeMounts p cname c files) := by
  have hone (target : String) (v : ContainerVolume) : Quiet (volumeMount p cname target v) := by
    unfold volumeMount
    split
    · exact (silent_refusal ..).quiet
    · split
      · exact (silent_refusal ..).quiet
      · exact ⟨rfl⟩
  unfold volumeMounts
  apply Quiet.bind
  · exact quiet_forEach fun v => hone v.1 v.2
  · intro found
    dsimp only
    split
    · exact quiet_pure _
    · exact ⟨rfl⟩

theorem quiet_containers (files : FilesOut) : Quiet (containers r p files) := by
  have hprobe (cname name : String) (given : Option ContainerProbe) (default : Option Value) :
      Quiet (probeOr cname name given default) := by
    cases given with
    | none => exact quiet_pure _
    | some given => exact (silent_probe cname name given).quiet
  have hparts (cname : String) (c : Container) :
      Quiet (containerParts r p files (readinessPort r) cname c) :=
    (quiet_envVars _ _ _).bind fun _ => (silent_resources _ _ _).quiet.bind fun _ =>
      (hprobe _ _ _ _).bind fun _ => (hprobe _ _ _ _).bind fun _ =>
        (quiet_volumeMounts _ _ _).bind fun _ => quiet_pure _
  apply quiet_forEach
  intro c
  unfold container
  split
  · exact (silent_refusal ..).quiet
  · exact (hparts _ _).bind fun _ => quiet_pure _

theorem quiet_fileEntries : Quiet (fileEntries r p) := by
  have hcontent (cname target : String) (f : ContainerFile) : Quiet (fileContent r p cname target f) := by
    unfold fileContent
    split
    · split
      · exact quiet_pure _
      · apply (quiet_subst _ _).bind
        intro v
        cases v with
        | error causes => exact (silent_refusal ..).quiet
        | ok v =>
          dsimp only
          split
          · exact (silent_refusal ..).quiet
          · exact quiet_pure _
    · exact quiet_pure _
    · exact (silent_refusal ..).quiet
  apply quiet_forEach
  intro f
  apply (hcontent _ _ _).bind
  intro content
  cases content with
  | none => exact quiet_pure _
  | some content =>
    dsimp only
    split
    · exact (silent_refusal ..).quiet
    · exact quiet_pure _

end Quiet

section Objects
variable {r : Renderer} {p : Provided}

def filesOut (r : Renderer) (p : Provided) : FilesOut := (files r p).value

def containersOut (r : Renderer) (p : Provided) : List Value := (containers r p (filesOut r p)).value

/-- What the files and the containers were found to use. -/
def seen (r : Renderer) (p : Provided) : Effects := (containersWithFiles r p).effects

def podOut (r : Renderer) (p : Provided) (profile : Option Profile) : Value :=
  podSpec r p (containersOut r p) (podVolumes r p (filesOut r p) (seen r p)) profile

theorem quiet_unmounted (seen : Effects) : Quiet (unmounted p seen) := by
  apply quiet_forEach
  intro v
  split <;> exact ⟨rfl⟩

theorem objects_containersWithFiles :
    (containersWithFiles r p).effects.objects = (files r p).effects.objects := by
  have hcontainers := (quiet_containers (r := r) (p := p) (files r p).value).objects
  simp [containersWithFiles, hcontainers, Effects.none]

theorem objects_deployment (containers : List Value) (files : FilesOut) (profile : Option Profile)
    (seen : Effects) : (deployment r p containers files profile seen).effects.objects =
      [deploymentObject r (podSpec r p containers (podVolumes r p files seen) profile) files.hash] := by
  simp only [deployment, bind_effects, append_objects, (quiet_unmounted seen).objects, object_objects,
    List.nil_append]

/-- The secrets that are used, each with an object of its own. -/
theorem objects_externalSecrets (store : SecretStore) (hstore : r.env.secretStore = some store)
    (used : List (String × String)) : (externalSecrets r p used).effects.objects =
      ((sortedRows p.secrets).filter fun s => usedKeys used s.1 ≠ []).map
        fun s => externalSecret r store s.1 s.2 (usedKeys used s.1) := by
  rw [externalSecrets, forEach_objects]
  induction sortedRows p.secrets with
  | nil => rfl
  | cons s l ih =>
    rw [List.flatMap_cons, ih, List.filter_cons]
    by_cases hused : usedKeys used s.1 = []
    · rw [if_pos hused, if_neg (by simp [hused])]
      rfl
    · rw [if_neg hused, if_pos (by simp [hused]), hstore]
      rfl

/-- The objects in the order they are made. -/
theorem objects_buildObjects (profile : Option Profile) :
    (buildObjects r profile p).effects.objects = (files r p).effects.objects ++
      ((serviceAccount r p).effects.objects ++ ((externalSecrets r p (seen r p).used).effects.objects ++
        ((service r).effects.objects ++
          ([deploymentObject r (podOut r p profile) (filesOut r p).hash] ++
            ((autoscaler r).effects.objects ++
              ((disruptionBudget r).effects.objects ++ (serviceMonitor r).effects.objects)))))) := by
  simp only [buildObjects, bind_effects, append_objects, listen_effects, listen_value,
    objects_containersWithFiles, objects_deployment]
  rfl

end Objects
end Kubeast.Render
