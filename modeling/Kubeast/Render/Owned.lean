import Kubeast.Render.Passes

/-! Who an object belongs to: the kinds and names of what the renderer makes, and what says whose
they are. -/
namespace Kubeast.Render
open Sorted

section Made

/-- An object of the renderer's own making. -/
def Made (r : Renderer) (kind name : String) (o : Value) : Prop :=
  ∃ apiVersion annotations fields, o = r.object apiVersion kind name annotations fields ∧
    (∀ f ∈ fields, f.1 ∉ ["apiVersion", "kind", "metadata"]) ∧ ∀ a ∈ annotations, a.1 ≠ annOwner

/-- What says whose an object is. -/
structure Tagged (r : Renderer) (kind name : String) (o : Value) : Prop where
  kind_eq : o.get "kind" = some (.str kind)
  name_eq : o.find ["metadata", "name"] = some (.str name)
  owner : o.find ["metadata", "annotations", annOwner] = some (.str (r.owner kind name))
  labels : ∀ l ∈ r.labels, o.find ["metadata", "labels", l.1] = some l.2

variable {r : Renderer} {kind name apiVersion : String} {o : Value}
  {annotations fields : List (String × Value)}

theorem find_cons {v w : Value} {k : String} {path : List String} (h : v.get k = some w) :
    v.find (k :: path) = w.find path := by
  rw [Value.find, h, Option.bind_some]

/-- The labels have different keys. -/
theorem get_labels {l : String × Value} (h : l ∈ r.labels) : (Value.map r.labels).get l.1 = some l.2 := by
  simp only [Renderer.labels, List.mem_cons, List.not_mem_nil, or_false] at h
  rcases h with rfl | rfl | rfl | rfl <;> rfl

theorem get_object (hfields : ∀ f ∈ fields, f.1 ∉ ["apiVersion", "kind", "metadata"])
    {k : String} (hk : k ∈ ["apiVersion", "kind", "metadata"]) :
    (r.object apiVersion kind name annotations fields).get k =
      (Value.map [("apiVersion", .str apiVersion), ("kind", .str kind),
        ("metadata", r.meta_ kind name annotations)]).get k := by
  have hnone : (Value.map fields).get k = none := by
    rw [Value.get_eq_none]
    intro f hf heq
    exact hfields f hf (heq ▸ hk)
  rw [Renderer.object, Value.get_append, hnone, Option.none_or]

theorem Made.tagged (h : Made r kind name o) : Tagged r kind name o ∧
    o.find ["metadata", "namespace"] = some (.str r.ns) := by
  obtain ⟨apiVersion, annotations, fields, rfl, hfields, hann⟩ := h
  have hmeta : (r.object apiVersion kind name annotations fields).get "metadata" =
      some (r.meta_ kind name annotations) := get_object hfields (by decide)
  have howner : (Value.map (annotations ++ [(annOwner, Value.str (r.owner kind name))])).get annOwner =
      some (Value.str (r.owner kind name)) := by
    have hnone : (Value.map annotations).get annOwner = none := Value.get_eq_none.mpr hann
    rw [Value.get_append, hnone, Option.none_or, Value.get_cons, if_pos rfl]
  refine ⟨⟨get_object hfields (by decide), ?_, ?_, ?_⟩, ?_⟩
  · rw [find_cons hmeta]
    rfl
  · rw [find_cons hmeta, find_cons (w := .map _) rfl, find_cons howner, Value.find]
  · intro l hl
    rw [find_cons hmeta, find_cons (w := .map r.labels) rfl, find_cons (get_labels hl)]
    rfl
  · rw [find_cons hmeta]
    rfl

/-- The kind and name of an object. -/
def ident (o : Value) : String × String := (kindOf o, objName o)

theorem Tagged.ident (h : Tagged r kind name o) : ident o = (kind, name) := by
  rw [Render.ident, kindOf, objName, h.kind_eq, h.name_eq]
  rfl

theorem Made.ident (h : Made r kind name o) : Render.ident o = (kind, name) := h.tagged.1.ident

end Made

section Named
variable {r : Renderer} {p : Provided} {kinds kinds' : List String} {objects objects' : List Value}

/-- The names of the objects of a kind. -/
def Expected (r : Renderer) (kind name : String) : Prop :=
  match kind with
  | "ConfigMap" => name = filesName r
  | "ExternalSecret" => ∃ row ∈ r.workload.resources.rows, row.2.type = "secret" ∧
      name = secretName r.name row.1
  | "HTTPRoute" => ∃ row ∈ r.workload.resources.rows, row.2.type = "route" ∧
      name = r.name ++ "-" ++ row.1
  | _ => name = r.name

/-- Objects of some kinds with the names of their kinds, no two of one kind and name. -/
structure Named (r : Renderer) (kinds : List String) (objects : List Value) : Prop where
  made : ∀ o ∈ objects, ∃ kind ∈ kinds, ∃ name, Made r kind name o ∧ Expected r kind name
  nodup : (objects.map ident).Nodup

theorem named_nil : Named r kinds [] := ⟨by simp, List.nodup_nil⟩

theorem named_singleton {kind name : String} {o : Value} (h : Made r kind name o)
    (h' : Expected r kind name) : Named r [kind] [o] where
  made o' ho' := by
    obtain rfl := List.mem_singleton.mp ho'
    exact ⟨kind, List.mem_singleton_self _, name, h, h'⟩
  nodup := List.nodup_singleton _

theorem Named.append (h : Named r kinds objects) (h' : Named r kinds' objects')
    (hkinds : ∀ kind ∈ kinds, kind ∉ kinds') : Named r (kinds ++ kinds') (objects ++ objects') where
  made o ho := by
    rcases List.mem_append.mp ho with ho | ho
    · obtain ⟨kind, hkind, hname⟩ := h.made o ho
      exact ⟨kind, List.mem_append_left _ hkind, hname⟩
    · obtain ⟨kind, hkind, hname⟩ := h'.made o ho
      exact ⟨kind, List.mem_append_right _ hkind, hname⟩
  nodup := by
    rw [List.map_append]
    apply List.Nodup.append h.nodup h'.nodup
    intro i hi hi'
    obtain ⟨o, ho, rfl⟩ := List.mem_map.mp hi
    obtain ⟨o', ho', heq⟩ := List.mem_map.mp hi'
    obtain ⟨kind, hkind, name, hmade, -⟩ := h.made o ho
    obtain ⟨kind', hkind', name', hmade', -⟩ := h'.made o' ho'
    rw [hmade.ident, hmade'.ident] at heq
    exact hkinds kind hkind ((Prod.mk.inj heq).1 ▸ hkind')

/-- Objects of one kind, named after different ids. -/
theorem named_ids {kind : String} {ids : List String} {f : String → String} {P : String → Value → Prop}
    (hids : ids.Nodup) (hf : Function.Injective f) (hobjects : List.Forall₂ P ids objects)
    (hmade : ∀ id o, P id o → Made r kind (f id) o) (hname : ∀ id ∈ ids, Expected r kind (f id)) :
    Named r [kind] objects := by
  have hidents : objects.map ident = ids.map fun id => (kind, f id) := by
    clear hids hname
    induction hobjects with
    | nil => rfl
    | cons hone _ ih => rw [List.map_cons, List.map_cons, ih, (hmade _ _ hone).ident]
  constructor
  · clear hids hidents
    induction hobjects with
    | nil => simp
    | @cons id o ids objects hone _ ih =>
      intro o' ho'
      rcases List.mem_cons.mp ho' with rfl | ho'
      · exact ⟨kind, List.mem_singleton_self _, f id, hmade _ _ hone, hname id (List.mem_cons_self ..)⟩
      · exact ih (fun id hid => hname id (List.mem_cons_of_mem _ hid)) o' ho'
  · rw [hidents]
    exact hids.map fun id id' h => hf (Prod.mk.inj h).2

theorem secretName_injective (name : String) : Function.Injective (secretName name) := by
  intro id id' h
  have hlist := congrArg String.toList h
  simp only [secretName, String.toList_append] at hlist
  exact String.toList_inj.mp (List.append_cancel_left hlist)

/-- An added object: its own fields are none of those that every object has. -/
theorem named_add {apiVersion kind name : String} {annotations fields : List (String × Value)}
    (hfields : ∀ f ∈ fields, f.1 ∉ ["apiVersion", "kind", "metadata"])
    (hann : ∀ a ∈ annotations, a.1 ≠ annOwner) (hname : Expected r kind name) :
    Named r [kind] (r.add apiVersion kind name annotations fields).effects.objects :=
  named_singleton ⟨_, _, _, rfl, hfields, hann⟩ hname

/-- An added object whose one field is its `spec`. -/
theorem named_spec {apiVersion kind name : String} {annotations : List (String × Value)} {spec : Value}
    (hann : ∀ a ∈ annotations, a.1 ≠ annOwner) (hname : Expected r kind name) :
    Named r [kind] (r.add apiVersion kind name annotations [("spec", spec)]).effects.objects :=
  named_add (by simp) hann hname

theorem named_files : Named r ["ConfigMap"] (files r p).effects.objects := by
  have hentries := (quiet_fileEntries (r := r) (p := p)).objects
  have hfield (key : String) (m : Dict String String) : ∀ f ∈ mapField key m, f.1 = key := by
    unfold mapField
    split <;> simp
  unfold files
  rw [bind_effects, append_objects, hentries, List.nil_append]
  dsimp only
  split
  · exact named_nil
  · rw [bind_effects, append_objects, pure_effects]
    have hadd : Named r ["ConfigMap"] (r.add "v1" "ConfigMap" (filesName r) []
        (mapField "data" (dataOf (fileEntries r p).value) ++
          mapField "binaryData" (binaryOf (fileEntries r p).value))).effects.objects := by
      have hname : Expected r "ConfigMap" (filesName r) := rfl
      apply named_add _ (by simp) hname
      intro f hf
      rcases List.mem_append.mp hf with hf | hf
      · rw [hfield _ _ f hf]
        decide
      · rw [hfield _ _ f hf]
        decide
    exact (List.append_nil _).symm ▸ hadd

theorem named_serviceAccount : Named r ["ServiceAccount"] (serviceAccount r p).effects.objects := by
  have hname : Expected r "ServiceAccount" r.name := rfl
  apply named_add (by simp) _ hname
  cases p.sa with
  | none => simp
  | some sa =>
    dsimp only
    split
    · simp [annOwner]
    · simp

theorem named_service : Named r ["Service"] (service r).effects.objects := by
  have hname : Expected r "Service" r.name := rfl
  unfold service
  split
  · exact named_nil
  · exact named_spec (by simp) hname

theorem named_deployment (pod : Value) (hash : String) :
    Named r ["Deployment"] [deploymentObject r pod hash] := by
  have hname : Expected r "Deployment" r.name := rfl
  apply named_spec _ hname
  intro a ha
  rcases List.mem_append.mp ha with ha | ha
  · split at ha
    · cases ha
    · rw [List.mem_singleton.mp ha]
      simp [annOwner]
  · split at ha
    · cases ha
    · simp only [List.mem_cons, List.not_mem_nil, or_false] at ha
      rcases ha with rfl | rfl <;> simp [annOwner]

theorem named_autoscaler : Named r ["HorizontalPodAutoscaler"] (autoscaler r).effects.objects := by
  have hname : Expected r "HorizontalPodAutoscaler" r.name := rfl
  unfold autoscaler
  split
  · exact named_nil
  · exact named_spec (by simp) hname

theorem named_disruptionBudget :
    Named r ["PodDisruptionBudget"] (disruptionBudget r).effects.objects := by
  have hname : Expected r "PodDisruptionBudget" r.name := rfl
  have hbudget (limit : String) (n : ℤ) :
      Named r ["PodDisruptionBudget"] (budget r limit n).effects.objects :=
    named_spec (by simp) hname
  unfold disruptionBudget
  dsimp only
  split
  · exact named_nil
  · split
    · exact named_nil
    · exact hbudget ..
  · exact hbudget ..
  · split <;> exact hbudget ..

theorem named_serviceMonitor : Named r ["ServiceMonitor"] (serviceMonitor r).effects.objects := by
  have hname : Expected r "ServiceMonitor" r.name := rfl
  unfold serviceMonitor
  split
  · exact named_nil
  · split
    · exact named_nil
    · split
      · exact named_nil
      · exact named_spec (by simp) hname

/-- What the resources and their secrets add, with what they are. -/
theorem named_externalSecrets (hsound : Sound r r.workload.resources.rows p)
    (used : List (String × String)) :
    Named r ["ExternalSecret"] (externalSecrets r p used).effects.objects := by
  cases hstore : r.env.secretStore with
  | none =>
    have hnone : sortedRows p.secrets = [] := by
      rw [List.eq_nil_iff_forall_not_mem]
      intro s hs
      have hlookup : (lookup p.secrets s.1).isSome = true := by
        rw [lookup, Table.get_of_mem (mem_sortedRows.mp hs)]
        rfl
      have hsome := (hsound.secret s.1 hlookup).2
      rw [hstore] at hsome
      cases hsome
    rw [externalSecrets, hnone]
    exact named_nil
  | some store =>
    rw [objects_externalSecrets store hstore]
    have hids : (((sortedRows p.secrets).filter fun s => usedKeys used s.1 ≠ []).map Prod.fst).Nodup :=
      (nodup_sortedRows p.secrets).sublist (List.filter_sublist.map _)
    apply named_ids (P := fun id o => ∃ res, o = externalSecret r store id res (usedKeys used id)) hids
      (secretName_injective r.name)
    · rw [List.forall₂_map_left_iff, List.forall₂_map_right_iff, List.forall₂_same]
      exact fun s _ => ⟨s.2, rfl⟩
    · rintro id o ⟨res, rfl⟩
      exact ⟨_, _, _, rfl, by simp, by simp⟩
    · intro id hid
      obtain ⟨s, hs, rfl⟩ := List.mem_map.mp hid
      have hlookup : (lookup p.secrets s.1).isSome = true := by
        rw [lookup, Table.get_of_mem (mem_sortedRows.mp (List.mem_of_mem_filter hs))]
        rfl
      obtain ⟨⟨row, hrow, hid, htype⟩, -⟩ := hsound.secret s.1 hlookup
      exact ⟨row, hrow, htype, by rw [hid]⟩

theorem named_routes {routes : List String} (hroutes : routes.Nodup)
    (htype : ∀ id ∈ routes, ∃ row ∈ r.workload.resources.rows, row.1 = id ∧ row.2.type = "route")
    (hobjects : List.Forall₂ (IsRoute r) routes objects) : Named r ["HTTPRoute"] objects := by
  apply named_ids hroutes (secretName_injective r.name) hobjects
  · rintro id o ⟨gw, host, path, port, rfl, -⟩
    exact ⟨_, _, _, rfl, by simp, by simp⟩
  · intro id hid
    obtain ⟨row, hrow, hid, htype⟩ := htype id hid
    exact ⟨row, hrow, htype, by rw [hid]; rfl⟩

/-- The kinds of the objects the renderer makes, in the order it makes them. -/
def madeKinds : List String :=
  ["HTTPRoute"] ++ (["ConfigMap"] ++ (["ServiceAccount"] ++ (["ExternalSecret"] ++ (["Service"] ++
    (["Deployment"] ++ (["HorizontalPodAutoscaler"] ++ (["PodDisruptionBudget"] ++
      ["ServiceMonitor"])))))))

theorem rendered_eq_ok {built : Effects} (h : rendered r = .ok built) :
    (prepare r).effects.errs = [] ∧ built.errs = [] ∧
    built = (prepare r).effects ++ (buildObjects r (prepare r).value.1 (prepare r).value.2).effects := by
  unfold rendered at h
  dsimp only at h
  split at h
  · cases h
  · next hfirst =>
    split at h
    · cases h
    · next hbuilt =>
      obtain rfl := Except.ok.inj h
      exact ⟨not_not.mp hfirst, not_not.mp hbuilt, rfl⟩

/-- The objects of a workload have the kinds and names of its own, each once. -/
theorem named_rendered {built : Effects} (h : rendered r = .ok built) :
    Named r madeKinds built.objects := by
  obtain ⟨hfirst, -, rfl⟩ := rendered_eq_ok h
  obtain ⟨hsound, routes, hroutes, htype, hobjects⟩ := prepare_spec hfirst
  rw [append_objects, objects_buildObjects]
  apply (named_routes hroutes htype hobjects).append _ (by decide)
  apply named_files.append _ (by decide)
  apply named_serviceAccount.append _ (by decide)
  apply (named_externalSecrets hsound _).append _ (by decide)
  apply named_service.append _ (by decide)
  apply (named_deployment _ _).append _ (by decide)
  apply named_autoscaler.append _ (by decide)
  exact named_disruptionBudget.append named_serviceMonitor (by decide)

end Named
end Kubeast.Render
