import Kubeast.Render.Contents
import Kubeast.Render.Kept

/-! What the rendered objects refer to, and when all of it is there. -/
namespace Kubeast.Render
open Sorted Words

section Linked

/-- The items of a list, none where the value is not a list. -/
def items : Option Value → List Value
  | some (.list l) => l
  | _ => []

/-- A list of the pods of a deployment. -/
def podItems (d : Value) (key : String) : List Value := items (d.find ["spec", "template", "spec", key])

/-- The selectors of an object. -/
def selectors (o : Value) : List Value :=
  match kindOf o with
  | "Service" => (o.find ["spec", "selector"]).toList
  | "Deployment" => (o.find ["spec", "selector", "matchLabels"]).toList ++
      (podItems o "topologySpreadConstraints").filterMap fun s => s.find ["labelSelector", "matchLabels"]
  | "PodDisruptionBudget" => (o.find ["spec", "selector", "matchLabels"]).toList
  | "ServiceMonitor" => (o.find ["spec", "selector", "matchLabels"]).toList
  | _ => []

/-- The selector asks for labels that are there. -/
def Selects (selector labels : Value) : Prop :=
  ∃ ms, selector = .map ms ∧ ms ≠ [] ∧ ∀ m ∈ ms, labels.get m.1 = some m.2

/-- Objects that refer only to what is among them. -/
structure Linked (objects : List Value) : Prop where
  mounts : ∀ d ∈ objects, kindOf d = "Deployment" → ∀ c ∈ podItems d "containers",
    ∀ m ∈ items (c.get "volumeMounts"), ∃ v ∈ podItems d "volumes", ∃ name,
      v.get "name" = some (.str name) ∧ m.get "name" = some (.str name)
  paths : ∀ d ∈ objects, kindOf d = "Deployment" → ∀ c ∈ podItems d "containers",
    ((items (c.get "volumeMounts")).map fun m => m.get "mountPath").Nodup
  secrets : ∀ d ∈ objects, kindOf d = "Deployment" → ∀ c ∈ podItems d "containers",
    ∀ e ∈ items (c.get "env"), ∀ ref, e.find ["valueFrom", "secretKeyRef"] = some ref →
      ∃ s ∈ objects, kindOf s = "ExternalSecret" ∧ s.find ["spec", "target", "name"] = ref.get "name" ∧
        ∃ row ∈ items (s.find ["spec", "data"]), row.get "secretKey" = ref.get "key"
  routes : ∀ o ∈ objects, kindOf o = "HTTPRoute" → ∀ rule ∈ items (o.find ["spec", "rules"]),
    ∀ b ∈ items (rule.get "backendRefs"), ∃ s ∈ objects, kindOf s = "Service" ∧
      s.find ["metadata", "name"] = b.get "name" ∧
      ∃ port ∈ items (s.find ["spec", "ports"]), port.get "port" = b.get "port"
  monitors : ∀ o ∈ objects, kindOf o = "ServiceMonitor" → ∀ e ∈ items (o.find ["spec", "endpoints"]),
    ∃ s ∈ objects, kindOf s = "Service" ∧
      ∃ port ∈ items (s.find ["spec", "ports"]), port.get "name" = e.get "port"
  scaled : ∀ o ∈ objects, kindOf o = "HorizontalPodAutoscaler" → ∃ d ∈ objects,
    o.find ["spec", "scaleTargetRef", "kind"] = some (.str "Deployment") ∧ kindOf d = "Deployment" ∧
      o.find ["spec", "scaleTargetRef", "name"] = d.find ["metadata", "name"]
  selected : ∀ o ∈ objects, ∀ selector ∈ selectors o, ∃ d ∈ objects, kindOf d = "Deployment" ∧
    ∃ labels, d.find ["spec", "template", "metadata", "labels"] = some labels ∧ Selects selector labels

theorem Linked.congr {l l' : List Value} (h : Linked l) (hmem : ∀ o, o ∈ l ↔ o ∈ l') : Linked l' := by
  constructor
  · exact fun d hd => h.mounts d ((hmem d).mpr hd)
  · exact fun d hd => h.paths d ((hmem d).mpr hd)
  · intro d hd hkind c hc e he ref href
    obtain ⟨s, hs, hrest⟩ := h.secrets d ((hmem d).mpr hd) hkind c hc e he ref href
    exact ⟨s, (hmem s).mp hs, hrest⟩
  · intro o ho hkind rule hrule b hb
    obtain ⟨s, hs, hrest⟩ := h.routes o ((hmem o).mpr ho) hkind rule hrule b hb
    exact ⟨s, (hmem s).mp hs, hrest⟩
  · intro o ho hkind e he
    obtain ⟨s, hs, hrest⟩ := h.monitors o ((hmem o).mpr ho) hkind e he
    exact ⟨s, (hmem s).mp hs, hrest⟩
  · intro o ho hkind
    obtain ⟨d, hd, hrest⟩ := h.scaled o ((hmem o).mpr ho) hkind
    exact ⟨d, (hmem d).mp hd, hrest⟩
  · intro o ho selector hsel
    obtain ⟨d, hd, hrest⟩ := h.selected o ((hmem o).mpr ho) selector hsel
    exact ⟨d, (hmem d).mp hd, hrest⟩

end Linked

section Fields
variable {key key' : String} {l : List Value} {v : Option Value} {ms ms' : List (String × Value)}

theorem get_field : (Value.map (field key v)).get key' = if key = key' then v else none := by
  cases v with
  | none => exact (ite_self _).symm
  | some v => exact Value.get_cons

theorem get_listField : (Value.map (listField key l)).get key' =
    if key = key' ∧ l ≠ [] then some (.list l) else none := by
  unfold listField
  by_cases hl : l = []
  · rw [if_pos hl, if_neg (fun h => h.2 hl)]
    rfl
  · rw [if_neg hl, Value.get_cons, Value.get_nil]
    simp [hl]

theorem items_listField : items ((Value.map (listField key l)).get key) = l := by
  rw [get_listField]
  by_cases hl : l = []
  · rw [if_neg (fun h => h.2 hl), hl]
    rfl
  · rw [if_pos ⟨rfl, hl⟩]
    rfl

end Fields

section Parts
variable {r : Renderer} {p : Provided} {cname : String} {c : Container} {parts : ContainerParts}
  {containers : List Value} {volumes : List PodVolume} {profile : Option Profile} {hash : String}
  {pod : Value} {apiVersion kind name : String} {annotations fields : List (String × Value)}

theorem get_containerObject : (containerObject r cname c parts).get "name" = some (.str cname) := by
  simp [containerObject, Value.get_cons]

theorem mounts_containerObject : items ((containerObject r cname c parts).get "volumeMounts") =
    parts.mounts.map Mount.toValue := by
  have hget : (containerObject r cname c parts).get "volumeMounts" =
      (Value.map (listField "volumeMounts" (parts.mounts.map Mount.toValue))).get "volumeMounts" := by
    simp [containerObject, Value.get_append, Value.get_cons, get_listField, get_field]
  rw [hget, items_listField]

theorem env_containerObject : items ((containerObject r cname c parts).get "env") =
    parts.env.map (EnvEntry.toValue r.name) := by
  have hget : (containerObject r cname c parts).get "env" =
      (Value.map (listField "env" (parts.env.map (EnvEntry.toValue r.name)))).get "env" := by
    simp [containerObject, Value.get_append, Value.get_cons, get_listField, get_field]
  rw [hget, items_listField]

theorem get_mapField {key key' : String} {m : Dict String String} (h : key ≠ key') :
    (Value.map (mapField key m)).get key' = none := by
  unfold mapField
  split
  · rfl
  · exact Value.get_cons.trans (if_neg h)

/-- A profile says where the pod runs and nothing else. -/
theorem get_profile {key : String} (h : key ∉ ["nodeSelector", "tolerations"]) :
    (Value.map (profile.toList.flatMap fun profile => mapField "nodeSelector" profile.nodeSelector ++
      listField "tolerations" (profile.tolerations.map tolerationObject))).get key = none := by
  simp only [List.mem_cons, List.not_mem_nil, or_false, not_or] at h
  cases profile with
  | none => rfl
  | some profile =>
    rw [Option.toList_some, List.flatMap_singleton, Value.get_append, get_mapField (Ne.symm h.1),
      get_listField, if_neg (fun heq => h.2 heq.1.symm)]
    rfl

theorem containers_podSpec : items ((podSpec r p containers volumes profile).get "containers") =
    containers := by
  simp [podSpec, Value.get_cons, items]

theorem get_volumes_podSpec : (podSpec r p containers volumes profile).get "volumes" =
    (Value.map (listField "volumes" (volumes.map PodVolume.toValue))).get "volumes" := by
  unfold podSpec
  rw [Value.get_append, Value.get_append, get_profile (by decide)]
  split <;> simp [Value.get_cons, get_listField]

theorem volumes_podSpec : items ((podSpec r p containers volumes profile).get "volumes") =
    volumes.map PodVolume.toValue := by
  rw [get_volumes_podSpec, items_listField]

theorem spread_podSpec :
    items ((podSpec r p containers volumes profile).get "topologySpreadConstraints") =
      (r.ext.spread.getD r.env.spread).map (spreadConstraint r) := by
  have hget : (podSpec r p containers volumes profile).get "topologySpreadConstraints" =
      (Value.map (listField "topologySpreadConstraints"
        ((r.ext.spread.getD r.env.spread).map (spreadConstraint r)))).get "topologySpreadConstraints" := by
    unfold podSpec
    rw [Value.get_append, Value.get_append, get_profile (by decide)]
    split <;> simp [Value.get_cons, get_listField]
  rw [hget, items_listField]

theorem podItems_deployment {key : String} :
    podItems (deploymentObject r pod hash) key = items (pod.get key) := by
  have hpod : (deploymentObject r pod hash).find ["spec", "template", "spec", key] = pod.find [key] := rfl
  rw [podItems, hpod, Value.find]
  cases pod.get key <;> rfl

end Parts

section Pieces
variable {r : Renderer} {built : Effects} {kind : String} {objects : List Value} {o : Value}

/-- What the resources of a workload provide. -/
def provided (r : Renderer) : Provided := (prepare r).value.2

def deploymentOut (r : Renderer) : Value :=
  deploymentObject r (podOut r (provided r) (prepare r).value.1) (filesOut r (provided r)).hash

/-- The rendered objects by kind. -/
def pieces (r : Renderer) : List (String × List Value) := [
  ("HTTPRoute", (prepare r).effects.objects), ("ConfigMap", (files r (provided r)).effects.objects),
  ("ServiceAccount", (serviceAccount r (provided r)).effects.objects),
  ("ExternalSecret", (externalSecrets r (provided r) (seen r (provided r)).used).effects.objects),
  ("Service", (service r).effects.objects), ("Deployment", [deploymentOut r]),
  ("HorizontalPodAutoscaler", (autoscaler r).effects.objects),
  ("PodDisruptionBudget", (disruptionBudget r).effects.objects),
  ("ServiceMonitor", (serviceMonitor r).effects.objects)]

theorem named_pieces (h : rendered r = .ok built) : ∀ piece ∈ pieces r, Named r [piece.1] piece.2 := by
  obtain ⟨hfirst, -, -⟩ := rendered_eq_ok h
  obtain ⟨hsound, routes, hroutes, htype, hobjects⟩ := prepare_spec hfirst
  simp only [pieces, List.forall_mem_cons, List.not_mem_nil, false_implies, implies_true, and_true]
  exact ⟨named_routes hroutes htype hobjects, named_files, named_serviceAccount,
    named_externalSecrets hsound _, named_service, named_deployment _ _, named_autoscaler,
    named_disruptionBudget, named_serviceMonitor⟩

theorem objects_pieces (h : rendered r = .ok built) : built.objects = (pieces r).flatMap Prod.snd := by
  obtain ⟨-, -, rfl⟩ := rendered_eq_ok h
  rw [append_objects, objects_buildObjects]
  simp [pieces, provided, deploymentOut]

/-- The objects of a kind. -/
theorem mem_piece (h : rendered r = .ok built) (hp : (kind, objects) ∈ pieces r) :
    o ∈ objects ↔ o ∈ built.objects ∧ kindOf o = kind := by
  have hkind : ∀ piece ∈ pieces r, ∀ o ∈ piece.2, kindOf o = piece.1 := by
    intro piece hpiece o ho
    obtain ⟨kind, hk, name, hmade, -⟩ := (named_pieces h piece hpiece).made o ho
    rw [← List.mem_singleton.mp hk]
    exact (Prod.mk.inj hmade.ident).1
  have hnodup : ((pieces r).map Prod.fst).Nodup := by
    simp [pieces]
  rw [objects_pieces h, List.mem_flatMap]
  constructor
  · exact fun ho => ⟨⟨_, hp, ho⟩, hkind _ hp o ho⟩
  · rintro ⟨⟨piece, hpiece, ho⟩, hkind'⟩
    have hsame : piece = (kind, objects) :=
      List.inj_on_of_nodup_map hnodup hpiece hp ((hkind piece hpiece o ho).symm.trans hkind')
    rw [hsame] at ho
    exact ho

end Pieces

section Blame
variable {α β : Type} {x : Except (List Message) α} {f : α → Except (List Message) β}

/-- What fails says why. -/
structure Blames (x : Except (List Message) α) : Prop where
  errs : ∀ errs, x = .error errs → errs ≠ []

theorem blames_ok {a : α} : Blames (.ok a) := ⟨fun _ h => nomatch h⟩

theorem blames_error {m : Message} {ms : List Message} :
    Blames (.error (m :: ms) : Except (List Message) α) := by
  constructor
  rintro errs ⟨⟩
  exact List.cons_ne_nil m ms

theorem Blames.bind (h : Blames x) (h' : ∀ a, Blames (f a)) : Blames (x >>= f) := by
  cases x with
  | error errs =>
    constructor
    rintro errs' ⟨⟩
    exact h.errs errs rfl
  | ok a => exact h' a

theorem blames_onlyParams (id type : String) (params : Params) (allowed : List String) :
    Blames (onlyParams id type params allowed) := by
  unfold onlyParams
  dsimp only
  split
  · exact blames_ok
  · next hne =>
    constructor
    rintro errs ⟨⟩
    exact hne

theorem blames_stringParam (id type : String) (params : Params) (key : String) :
    Blames (stringParam id type params key) := by
  unfold stringParam
  split
  · exact blames_ok
  · exact blames_ok
  · exact blames_ok
  · exact blames_error

theorem blames_mapM {l : List α} {g : α → Except (List Message) β} (h : ∀ a, Blames (g a)) :
    Blames (l.mapM g) := by
  induction l with
  | nil => exact blames_ok
  | cons a l ih =>
    rw [List.mapM_cons]
    exact (h a).bind fun _ => ih.bind fun _ => blames_ok

theorem blames_secretProperties (id : String) (v : Option Value) : Blames (secretProperties id v) := by
  unfold secretProperties
  split
  · exact blames_ok
  · apply blames_mapM
    intro m
    split
    · exact blames_ok
    · exact blames_error
  · exact blames_error

theorem blames_secret (r : Renderer) (id class_ : String) (params : Params) :
    Blames (secret r id class_ params) := by
  unfold secret
  split
  · exact blames_error
  · apply (blames_onlyParams ..).bind
    intro _
    apply (blames_stringParam ..).bind
    intro key
    split
    · exact blames_error
    · apply (blames_secretProperties ..).bind
      intro properties
      split
      · exact blames_error
      · split
        · exact blames_error
        · exact blames_ok

end Blame

section Secrets
variable {r : Renderer} {p : Provided} {id class_ : String} {res : Resource} {params : Params}
  {rows : List (String × Resource)} {v : Provision}

theorem secret_eq_ok (h : secret r id class_ params = .ok v) : ∃ sr, v = .secret sr := by
  unfold secret at h
  split at h
  · cases h
  · obtain ⟨-, -, h⟩ := Transition.bind_eq_ok.mp h
    obtain ⟨key, -, h⟩ := Transition.bind_eq_ok.mp h
    split at h
    · cases h
    · obtain ⟨properties, -, h⟩ := Transition.bind_eq_ok.mp h
      split at h
      · cases h
      · split at h
        · cases h
        · exact ⟨_, (Except.ok.inj h).symm⟩

/-- A secret resource provides a secret. -/
theorem secret_provisionOne (h : Errorless (provisionOne r p id res)) (htype : res.type = "secret") :
    ∃ sr, (provisionOne r p id res).value = some (.secret sr) := by
  unfold provisionOne at h ⊢
  dsimp only at h ⊢
  rw [htype] at h ⊢
  split at h
  · exact absurd h not_errorless_fail
  · next hclass =>
    rw [if_neg hclass]
    split at h
    · exact absurd h not_errorless_fail
    · split at h
      · exact absurd h not_errorless_fail
      · next params _ hplain =>
        rw [if_neg hplain]
        have hsecret : provisionAs r p id (res.class_.getD "") (Value.members params) "secret" =
            Built.ofExcept (secret r id (res.class_.getD "") (Value.members params)) := rfl
        rw [hsecret] at h ⊢
        cases hok : secret r id (res.class_.getD "") (Value.members params) with
        | error errs =>
          rw [hok] at h
          exact absurd h.errs ((blames_secret _ _ _ _).errs errs hok)
        | ok v =>
          obtain ⟨sr, rfl⟩ := secret_eq_ok hok
          exact ⟨sr, rfl⟩

theorem lookup_put {id' : String} (h : id ≠ id') :
    lookup (p.put id v).outputs id' = lookup p.outputs id' := by
  cases v <;> exact lookup_set.trans (if_neg h)

theorem keep_provisionAll (hid : id ∉ rows.map Prod.fst) :
    lookup (provisionAll r rows p).value.outputs id = lookup p.outputs id := by
  induction rows generalizing p with
  | nil => rfl
  | cons row rows ih =>
    obtain ⟨id', res⟩ := row
    rw [List.map_cons, List.mem_cons, not_or] at hid
    rw [provisionAll, bind_value, ih hid.2]
    cases (provisionOne r p id' res).value with
    | none => rfl
    | some v => exact lookup_put (Ne.symm hid.1)

theorem secrets_provisionAll (h : Errorless (provisionAll r rows p)) (hnodup : (rows.map Prod.fst).Nodup)
    (hmem : (id, res) ∈ rows) (htype : res.type = "secret") :
    lookup (provisionAll r rows p).value.outputs id = some .secret := by
  induction rows generalizing p with
  | nil => cases hmem
  | cons row rows ih =>
    obtain ⟨id', res'⟩ := row
    rw [List.map_cons, List.nodup_cons] at hnodup
    obtain ⟨hone, hrest⟩ := errorless_bind.mp h
    rw [provisionAll, bind_value]
    rcases List.mem_cons.mp hmem with heq | hmem
    · cases heq
      obtain ⟨sr, hsr⟩ := secret_provisionOne hone htype
      rw [keep_provisionAll hnodup.1, hsr]
      exact lookup_set.trans (if_pos rfl)
    · exact ih hrest hnodup.2 hmem

/-- What the secret resources of a workload provide. -/
theorem output_of_secret (h : (prepare r).effects.errs = []) (hmem : (id, res) ∈ r.workload.resources.rows)
    (htype : res.type = "secret") : lookup (provided r).outputs id = some .secret := by
  obtain ⟨hbefore, hprovision⟩ : (profile r).effects.errs = [] ∧
      (provision r (profile r).effects.errs).effects.errs = [] := by
    simpa [prepare, Built.listen, Effects.none] using h
  have hvalue : provided r = (provision r (profile r).effects.errs).value := rfl
  rw [hbefore] at hprovision hvalue
  have hall : Errorless (provisionAll r (provisionRows r) Provided.none) := by
    obtain ⟨hunsupported, hrest⟩ := errorless_bind.mp ⟨hprovision⟩
    rw [(unsupported_eq hunsupported.errs).1] at hrest
    exact hrest
  rw [hvalue, (provision_eq hprovision).1]
  exact secrets_provisionAll hall (nodup_provisionRows r) ((perm_provisionRows r).mem_iff.mpr hmem) htype

end Secrets
section Forged

/-- What a variable's text says: its own letters, those of the values it refers to, and its references to
secrets. -/
def Scope.written (s : Scope) : List Piece → Word Char Ref
  | [] => []
  | .text t :: ps => letters t.toList ++ s.written ps
  | .ref path :: ps =>
    match secretOutput s path with
    | some (id, key) => .inr ⟨id, key⟩ :: s.written ps
    | none => letters ((s.lookup path).toOption.getD "").toList ++ s.written ps

/-- The characters of a written word, each with whether a reference begins at it. -/
def origins (w : Word Char Ref) : List (Char × Bool) :=
  w.flatMap (Sum.elim (fun c => [(c, false)])
    fun ref => ((marker ref).take 1).map (·, true) ++ ((marker ref).drop 1).map (·, false))

/-- The markers that `secretRef` finds, each with whether it is a reference. Those that are not are formed by
letters. The first `skip` characters are of a marker that has been read. -/
def marks : ℕ → List (Char × Bool) → List (Ref × Bool)
  | _, [] => []
  | skip + 1, _ :: s => marks skip s
  | 0, (c, own) :: s =>
    match matchRef (c :: s.map Prod.fst) with
    | some (ref, n) => (ref, own) :: marks (n - 1) s
    | none => marks 0 s

/-- The markers that are embedded in a text, which are all but one that is the whole text. -/
def embeddedMarks (w : Word Char Ref) : List (Ref × Bool) :=
  match marks 0 (origins w) with
  | [m] => if Words.fill marker w = marker m.1 then [] else [m]
  | ms => ms

/-- The markers embedded in a container's variables, in the order of the variables' names. -/
def containerMarks (s : Scope) (vars : Dict String String) : List (Ref × Bool) :=
  (sortedRows vars).flatMap fun v => embeddedMarks (s.written (s.lib.scan v.2))

variable {s : Scope} {ps : List Piece} {v : String} {w : Word Char Ref} {ref : Ref} {refs : List Ref}
  {P : Ref → Prop}

theorem origins_fst : (origins w).map Prod.fst = Words.fill marker w := by
  rw [origins, List.map_flatMap, Words.fill]
  congr
  funext x
  cases x with
  | inl c => rfl
  | inr ref => simpa [Function.comp_def] using List.take_append_drop 1 (marker ref)

theorem map_marks (skip : ℕ) (cs : List (Char × Bool)) :
    (marks skip cs).map Prod.fst = atoms (scan matchRef skip (cs.map Prod.fst)) := by
  induction cs generalizing skip with
  | nil => cases skip <;> rfl
  | cons c cs ih =>
    obtain ⟨c, own⟩ := c
    cases skip with
    | succ skip => exact ih skip
    | zero =>
      rw [marks, List.map_cons, scan]
      cases matchRef (c :: cs.map Prod.fst) with
      | none => exact ih 0
      | some found => exact congrArg (found.1 :: ·) (ih (found.2 - 1))

/-- A character that a reference begins at begins its marker. -/
theorem marker_of_own {c : Char} {cs : List (Char × Bool)} (h : (c, true) :: cs <:+ origins w) :
    ∃ ref ∈ atoms w, ∃ t, c :: cs.map Prod.fst = marker ref ++ t := by
  have hpast : ∀ {l : List Char} {rest : List (Char × Bool)},
      (c, true) :: cs <:+ l.map (·, false) ++ rest → (c, true) :: cs <:+ rest := by
    intro l rest h
    induction l with
    | nil => exact h
    | cons d l ih =>
      rcases List.suffix_cons_iff.mp h with heq | h
      · cases heq
      · exact ih h
  induction w with
  | nil => cases List.suffix_nil.mp h
  | cons x w ih =>
    have hcons : ∀ {ref}, ref ∈ atoms w → ref ∈ atoms (x :: w) :=
      fun hr => mem_atoms.mpr (List.mem_cons_of_mem _ (mem_atoms.mp hr))
    cases x with
    | inl d =>
      obtain ⟨ref, href, t, ht⟩ := ih (hpast (l := [d]) h)
      exact ⟨ref, hcons href, t, ht⟩
    | inr ref =>
      obtain ⟨m, hm⟩ : ∃ m, marker ref = '\x00' :: m := ⟨_, marker_eq ref⟩
      have h : (c, true) :: cs <:+ ('\x00', true) :: (m.map (·, false) ++ origins w) := by
        simpa [origins, hm] using h
      rcases List.suffix_cons_iff.mp h with heq | h
      · refine ⟨ref, mem_atoms.mpr (List.mem_cons_self ..), Words.fill marker w, ?_⟩
        obtain ⟨hc, rfl⟩ := List.cons.inj heq
        obtain ⟨rfl, -⟩ := Prod.mk.inj hc
        simp [hm, origins_fst, Function.comp_def]
      · obtain ⟨ref', href, t, ht⟩ := ih (hpast h)
        exact ⟨ref', hcons href, t, ht⟩

/-- A marker that is a reference is one of the text's. -/
theorem mem_atoms_of_marks (hclean : ∀ ref ∈ atoms w, Clean ref) {skip : ℕ} {cs : List (Char × Bool)}
    (hsuffix : cs <:+ origins w) (h : (ref, true) ∈ marks skip cs) : ref ∈ atoms w := by
  induction cs generalizing skip with
  | nil => cases skip <;> cases h
  | cons c cs ih =>
    obtain ⟨c, own⟩ := c
    have hrest := (List.suffix_cons _ cs).trans hsuffix
    cases skip with
    | succ skip => exact ih hrest h
    | zero =>
      rw [marks] at h
      split at h
      · next found n hfound =>
        rcases List.mem_cons.mp h with heq | h
        · obtain ⟨rfl, rfl⟩ := Prod.mk.inj heq
          obtain ⟨ref', href', t, ht⟩ := marker_of_own hsuffix
          rw [ht, matchRef_marker (hclean ref' href')] at hfound
          obtain rfl := congrArg Prod.fst (Option.some.inj hfound)
          exact href'
        · exact ih hrest h
      · exact ih hrest h

theorem toList_substituted (h : substPieces s ps = .ok v) : v.toList = Words.fill marker (s.written ps) := by
  induction ps generalizing v with
  | nil =>
    obtain rfl := Except.ok.inj h
    rfl
  | cons piece ps ih =>
    cases piece with
    | text t =>
      rw [substPieces_text] at h
      cases hps : substPieces s ps with
      | error es => rw [hps] at h; cases h
      | ok u =>
        rw [hps] at h
        obtain rfl := Except.ok.inj h
        rw [Scope.written.eq_2, fill_append, fill_letters, ← ih hps, String.toList_append]
    | ref path =>
      obtain ⟨t, u, rfl, hps, hlookup⟩ := substPieces_cons h
      have hlookup := hlookup path rfl
      rw [Scope.written.eq_3, String.toList_append, ih hps]
      split
      · next id key hsecret =>
        obtain ⟨rfl, hout, hkey⟩ := secretOutput_eq_some.mp hsecret
        simp only [Scope.lookup_output hout, Output.get, if_pos hkey] at hlookup
        obtain rfl := Except.ok.inj hlookup
        rfl
      · rw [hlookup, fill_append, fill_letters]
        rfl

theorem used_of_written (h : ref ∈ atoms (s.written ps)) : (ref.id, ref.key) ∈ usedBy s ps := by
  have hletters : ∀ {t : List Char} {w : Word Char Ref}, ref ∈ atoms (letters t ++ w) → ref ∈ atoms w := by
    intro t w hmem
    rw [mem_atoms, List.mem_append] at hmem
    rcases hmem with hmem | hmem
    · obtain ⟨c, -, hc⟩ := List.mem_map.mp hmem
      cases hc
    · exact mem_atoms.mpr hmem
  induction ps with
  | nil => cases h
  | cons piece ps ih =>
    have hcons (hmem : ref ∈ atoms (s.written ps)) : (ref.id, ref.key) ∈ usedBy s (piece :: ps) := by
      obtain ⟨hpiece, hsecret⟩ := mem_usedBy.mp (ih hmem)
      exact mem_usedBy.mpr ⟨List.mem_cons_of_mem _ hpiece, hsecret⟩
    cases piece with
    | text t => exact hcons (hletters h)
    | ref path =>
      rw [Scope.written.eq_3] at h
      split at h
      · next id key hsecret =>
        rcases List.mem_cons.mp (mem_atoms.mp h) with heq | h
        · obtain rfl := Sum.inr.inj heq
          obtain ⟨rfl, hout, hkey⟩ := secretOutput_eq_some.mp hsecret
          exact mem_usedBy.mpr ⟨List.mem_cons_self .., hout, hkey⟩
        · exact hcons (mem_atoms.mpr h)
      · exact hcons (hletters h)

theorem embeddedMarks_subset {m : Ref × Bool} (h : m ∈ embeddedMarks w) : m ∈ marks 0 (origins w) := by
  unfold embeddedMarks at h
  split at h
  · next hm =>
    split at h
    · cases h
    · rwa [hm]
  · exact h

theorem splitRefs_marker (h : Clean ref) : splitRefs (String.ofList (marker ref)) = [.inr ref] := by
  have hfill : Words.fill marker [.inr ref] = marker ref := by simp
  rw [← hfill]
  refine splitRefs_written (fun c hc => ?_) fun ref' href => ?_
  · cases List.mem_singleton.mp hc
  · obtain rfl := Sum.inr.inj (List.mem_singleton.mp (mem_atoms.mp href))
    exact h

/-- The embedded markers are the embedded secrets. -/
theorem map_embeddedMarks (h : substPieces s ps = .ok v) :
    (embeddedMarks (s.written ps)).map Prod.fst = embedded (splitRefs v) := by
  have hatoms : (marks 0 (origins (s.written ps))).map Prod.fst = atoms (splitRefs v) := by
    rw [map_marks, origins_fst, ← toList_substituted h]
    rfl
  have hsame : Words.fill marker (splitRefs v) = Words.fill marker (s.written ps) :=
    (fill_splitRefs v).trans (toList_substituted h)
  obtain ⟨ref, hsingle⟩ | htext := single_or (splitRefs v)
  · rw [hsingle] at hatoms hsame ⊢
    obtain ⟨m, hm, rfl⟩ := List.map_eq_singleton_iff.mp hatoms
    rw [embeddedMarks, hm]
    simp [← hsame, embedded]
  · rw [embedded_eq htext, ← hatoms, embeddedMarks]
    split
    · next m hm =>
      split
      · next hwhole =>
        rw [hm] at hatoms
        have hmem : m.1 ∈ atoms (splitRefs v) := by
          rw [← hatoms]
          exact List.mem_singleton_self _
        have hv : v = String.ofList (marker m.1) := by
          rw [← hwhole, ← hsame, fill_splitRefs, String.ofList_toList]
        exact absurd (hv ▸ splitRefs_marker (clean_of_mem_splitRefs hmem)) (htext m.1)
      · rw [hm]
    · rfl

/-- The last of the secrets with a generated name is the one that stands for it. -/
theorem forall_winner_iff : (∀ ref ∈ refs, P (winner refs ref)) ↔ ∀ before ref after,
    refs = before ++ ref :: after → P ref ∨ ∃ other ∈ after, hiddenName other = hiddenName ref := by
  constructor
  · rintro hall before ref after rfl
    by_cases hlater : ∃ other ∈ after, hiddenName other = hiddenName ref
    · exact .inr hlater
    · left
      have hwinner : winner (before ++ ref :: after) ref = ref := by
        have hnone : after.reverse.find? (fun other => decide (hiddenName other = hiddenName ref)) = none := by
          rw [List.find?_eq_none]
          intro other hother
          simpa using fun heq => hlater ⟨other, List.mem_reverse.mp hother, heq⟩
        rw [winner, List.reverse_append, List.reverse_cons, List.append_assoc, List.find?_append, hnone]
        simp
      rw [← hwinner]
      exact hall ref (by simp)
  · intro hall ref href
    have hfound : refs.reverse.find? (fun other => decide (hiddenName other = hiddenName ref)) =
        some (winner refs ref) := by
      obtain ⟨-, -, hget⟩ := winner_spec href
      rw [get_hiddenVars] at hget
      obtain ⟨other, hother, heq⟩ := Option.map_eq_some_iff.mp hget
      rw [hother, (Prod.mk.inj heq).2]
    obtain ⟨hname, after, before, hsplit, hlater⟩ := List.find?_eq_some_iff_append.mp hfound
    have hrefs : refs = before.reverse ++ winner refs ref :: after.reverse := by
      simpa using congrArg List.reverse hsplit
    refine (hall _ _ _ hrefs).resolve_right ?_
    rintro ⟨other, hother, heq⟩
    have hnot := hlater other (List.mem_reverse.mp hother)
    rw [heq, hname] at hnot
    cases hnot

end Forged

end Kubeast.Render
