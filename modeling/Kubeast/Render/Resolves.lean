import Kubeast.Render.Collisions
import Kubeast.Render.Links
import Mathlib.Data.List.Dedup

/-! When the rendered objects refer only to what is there. -/
namespace Kubeast.Render
open Sorted Words

section Condition

/-- A secret that a container's variables take, by itself or through a variable of its own. -/
def Marked (s : Scope) (vars : Dict String String) (ref : Ref) : Prop :=
  (∃ v ∈ vars.rows, splitRefs (substituted s v.2) = [.inr ref]) ∨
    ∃ ref' ∈ embeddedRefs s vars, ref = winner (embeddedRefs s vars) ref'

/-- An output of a secret resource that a variable's text refers to. -/
def Refers (r : Renderer) (ref : Ref) : Prop :=
  (∃ row ∈ r.workload.resources.rows, row.1 = ref.id ∧ row.2.type = "secret") ∧
    ∃ c ∈ r.workload.containers.rows, ∃ v ∈ c.2.vars.rows,
      Piece.ref ["resources", ref.id, ref.key] ∈ r.lib.scan v.2

/-- What a variable of the workload says. -/
def Renderer.written (r : Renderer) (text : String) : Word Char Ref :=
  (scope r (provided r)).written (r.lib.scan text)

/-- No file is mounted where a volume or the temporary directory is, and no letters of a variable form a
marker of a secret that no variable refers to: neither a text as a whole, nor a part of one, where no marker
with the same generated name comes after it. -/
structure Linkable (r : Renderer) : Prop where
  apart : ∀ c ∈ r.workload.containers.rows, ∀ f ∈ c.2.files.rows, f.1 ∉ c.2.volumes.rows.map Prod.fst
  tmp : ∀ c ∈ r.workload.containers.rows, "/tmp" ∈ c.2.files.rows.map Prod.fst →
    ∃ v ∈ c.2.volumes.rows, Text.cleanPath v.1 = "/tmp"
  whole : ∀ c ∈ r.workload.containers.rows, ∀ v ∈ c.2.vars.rows, ∀ ref, Clean ref →
    Words.fill marker (r.written v.2) = marker ref → r.written v.2 = [.inr ref] ∨ Refers r ref
  formed : ∀ c ∈ r.workload.containers.rows, ∀ before ref after,
    containerMarks (scope r (provided r)) c.2.vars = before ++ (ref, false) :: after →
      Refers r ref ∨ ∃ m ∈ after, hiddenName m.1 = hiddenName ref

section Taken
variable {s : Scope} {vars : Dict String String} {P : Ref → Prop}

/-- All secrets that a container's variables take are of a kind that its references are of, where the markers
formed by letters are or are overwritten. -/
theorem forall_marked_iff
    (haccepted : ∀ v ∈ vars.rows, substPieces s (s.lib.scan v.2) = .ok (substituted s v.2))
    (hclean : ∀ v ∈ vars.rows, ∀ ref ∈ atoms (s.written (s.lib.scan v.2)), Clean ref)
    (hrefs : ∀ v ∈ vars.rows, ∀ ref ∈ atoms (s.written (s.lib.scan v.2)), P ref) :
    (∀ ref, Marked s vars ref → P ref) ↔
      (∀ v ∈ vars.rows, ∀ ref, Clean ref → Words.fill marker (s.written (s.lib.scan v.2)) = marker ref →
        s.written (s.lib.scan v.2) = [.inr ref] ∨ P ref) ∧
      ∀ before ref after, containerMarks s vars = before ++ (ref, false) :: after →
        P ref ∨ ∃ m ∈ after, hiddenName m.1 = hiddenName ref := by
  have hsame : ∀ v ∈ vars.rows, Words.fill marker (splitRefs (substituted s v.2)) =
      Words.fill marker (s.written (s.lib.scan v.2)) :=
    fun v hv => (fill_splitRefs _).trans (toList_substituted (haccepted v hv))
  have hmap : embeddedRefs s vars = (containerMarks s vars).map Prod.fst := by
    rw [embeddedRefs, containerMarks, List.map_flatMap]
    exact List.flatMap_congr fun v hv => (map_embeddedMarks (haccepted v (mem_sortedRows.mp hv))).symm
  have hown : ∀ ref, (ref, true) ∈ containerMarks s vars → P ref := by
    intro ref hmem
    obtain ⟨v, hv, hmem⟩ := List.mem_flatMap.mp hmem
    have hv := mem_sortedRows.mp hv
    exact hrefs v hv ref (mem_atoms_of_marks (hclean v hv) (List.suffix_refl _) (embeddedMarks_subset hmem))
  constructor
  · intro hall
    constructor
    · intro v hv ref href hwhole
      refine .inr (hall ref (.inl ⟨v, hv, ?_⟩))
      rw [← splitRefs_marker href, ← hwhole, ← toList_substituted (haccepted v hv), String.ofList_toList]
    · intro before ref after hsplit
      have hwin := (forall_winner_iff (P := P)).mp fun ref href => hall _ (.inr ⟨ref, href, rfl⟩)
      have hrefs : embeddedRefs s vars = before.map Prod.fst ++ ref :: after.map Prod.fst := by
        rw [hmap, hsplit, List.map_append, List.map_cons]
      simpa using hwin _ _ _ hrefs
  · rintro ⟨hwhole, hformed⟩ ref (⟨v, hv, hsingle⟩ | ⟨ref', href', rfl⟩)
    · have hmem : ref ∈ atoms (splitRefs (substituted s v.2)) := by
        rw [hsingle]
        exact List.mem_singleton_self _
      have hmarker : Words.fill marker (s.written (s.lib.scan v.2)) = marker ref := by
        rw [← hsame v hv, hsingle]
        simp
      rcases hwhole v hv ref (clean_of_mem_splitRefs hmem) hmarker with hown | href
      · exact hrefs v hv ref (hown ▸ List.mem_singleton_self _)
      · exact href
    · revert ref'
      refine forall_winner_iff.mpr fun before ref after hsplit => ?_
      rw [hmap] at hsplit
      obtain ⟨l, l', hmarks, rfl, hrest⟩ := List.map_eq_append_iff.mp hsplit
      obtain ⟨m, after', rfl, rfl, rfl⟩ := List.map_eq_cons_iff.mp hrest
      obtain ⟨ref, own⟩ := m
      cases own with
      | true => exact .inl (hown ref (hmarks ▸ by simp))
      | false => simpa using hformed _ _ _ hmarks

end Taken

/-- The variables that embedded secrets come through are defined before the variables they are
embedded in. -/
def HiddenFirst (r : Renderer) (objects : List Value) : Prop :=
  ∀ d ∈ objects, kindOf d = "Deployment" → ∀ o ∈ podItems d "containers",
    ∀ c ∈ r.workload.containers.rows, o.get "name" = some (.str c.1) → ∀ v ∈ c.2.vars.rows,
      ∀ ref ∈ embedded (splitRefs (substituted (scope r (provided r)) v.2)), ∃ before e after,
        items (o.get "env") = before ++ e :: after ∧ e.get "name" = some (.str v.1) ∧
        e.get "value" = some (.str (String.ofList
          (Words.fill dollarRef (splitRefs (substituted (scope r (provided r)) v.2))))) ∧
        ∃ h ∈ before, h.get "name" = some (.str (hiddenName ref))

end Condition

section Entries
variable {s : Scope} {cname name : String} {vars : Dict String String} {ref : Ref} {refs : List Ref}
  {e : EnvEntry} {v : String × String}

theorem secret_mem_hiddenEntries : (∃ name, EnvEntry.secret name ref ∈ hiddenEntries refs) ↔
    ∃ ref' ∈ refs, ref = winner refs ref' := by
  constructor
  · rintro ⟨name, hmem⟩
    obtain ⟨h, hh, heq⟩ := List.mem_map.mp hmem
    obtain ⟨rfl, rfl⟩ := EnvEntry.secret.inj heq
    have hget := Table.get_of_mem (mem_sortedRows.mp hh)
    rw [get_hiddenVars] at hget
    obtain ⟨other, hother, hpair⟩ := Option.map_eq_some_iff.mp hget
    have hfound := List.find?_some hother
    have hname : hiddenName other = h.1 := of_decide_eq_true hfound
    obtain rfl : other = h.2 := congrArg Prod.snd hpair
    refine ⟨h.2, List.mem_reverse.mp (List.mem_of_find?_eq_some hother), ?_⟩
    rw [winner, hname, hother]
    rfl
  · rintro ⟨ref', hmem, rfl⟩
    exact ⟨_, mem_hiddenEntries hmem⟩

theorem entry_eq_secret : entry s v = .secret name ref ↔
    v.1 = name ∧ splitRefs (substituted s v.2) = [.inr ref] := by
  obtain ⟨other, hsingle⟩ | htext := single_or (splitRefs (substituted s v.2))
  · rw [entry, envEntry_single hsingle, hsingle]
    simp
  · rw [entry, envEntry_text htext]
    constructor
    · rintro ⟨⟩
    · rintro ⟨-, hsingle⟩
      exact absurd hsingle (htext ref)

/-- The secrets that a container's entries take. -/
theorem secret_mem_envVars (h : Errorless (envVars s cname vars)) :
    (∃ name, EnvEntry.secret name ref ∈ (envVars s cname vars).value) ↔ Marked s vars ref := by
  rw [envVars_value h.errs]
  constructor
  · rintro ⟨name, hmem⟩
    rcases List.mem_append.mp hmem with hmem | hmem
    · exact Or.inr (secret_mem_hiddenEntries.mp ⟨name, hmem⟩)
    · obtain ⟨v, hv, hentry⟩ := List.mem_map.mp hmem
      exact Or.inl ⟨v, mem_sortedRows.mp hv, (entry_eq_secret.mp hentry).2⟩
  · rintro (⟨v, hv, hsingle⟩ | hhidden)
    · refine ⟨v.1, List.mem_append_right _ (List.mem_map.mpr ⟨v, mem_sortedRows.mpr hv, ?_⟩)⟩
      exact entry_eq_secret.mpr ⟨rfl, hsingle⟩
    · obtain ⟨name, hmem⟩ := secret_mem_hiddenEntries.mpr hhidden
      exact ⟨name, List.mem_append_left _ hmem⟩

theorem get_name_toValue : (e.toValue name).get "name" = some (.str e.name) := by
  cases e <;> rfl

theorem find_secretKeyRef {w : Value} : (e.toValue name).find ["valueFrom", "secretKeyRef"] = some w ↔
    ∃ k ref, e = .secret k ref ∧
      w = .map [("name", .str (secretName name ref.id)), ("key", .str ref.key)] := by
  cases e with
  | value k v => exact ⟨fun h => (nomatch h), fun ⟨_, _, h, _⟩ => nomatch h⟩
  | secret k ref =>
    constructor
    · intro h
      exact ⟨k, ref, rfl, (Option.some.inj h).symm⟩
    · rintro ⟨k', ref', heq, rfl⟩
      cases heq
      rfl

end Entries

section Secrets
variable {r : Renderer} {p : Provided} {used : List (String × String)} {o : Value} {ref : Ref}
  {built : Effects}

theorem mem_usedKeys {id k : String} : k ∈ usedKeys used id ↔ (id, k) ∈ used := by
  rw [usedKeys, Text.mem_sortStrings, List.mem_dedup, List.mem_map]
  constructor
  · rintro ⟨u, hu, rfl⟩
    obtain ⟨hmem, hid⟩ := List.mem_filter.mp hu
    rw [← of_decide_eq_true hid]
    exact hmem
  · exact fun h => ⟨_, List.mem_filter.mpr ⟨h, decide_eq_true rfl⟩, rfl⟩

theorem mem_externalSecrets : o ∈ (externalSecrets r p used).effects.objects ↔
    ∃ store, r.env.secretStore = some store ∧ ∃ s ∈ p.secrets.rows, usedKeys used s.1 ≠ [] ∧
      o = externalSecret r store s.1 s.2 (usedKeys used s.1) := by
  rw [externalSecrets, forEach_objects, List.mem_flatMap]
  constructor
  · rintro ⟨s, hs, ho⟩
    split at ho
    · cases ho
    · next hused =>
      cases hstore : r.env.secretStore with
      | none => rw [hstore] at ho; cases ho
      | some store =>
        rw [hstore] at ho
        exact ⟨store, rfl, s, mem_sortedRows.mp hs, hused, List.mem_singleton.mp ho⟩
  · rintro ⟨store, hstore, s, hs, hused, rfl⟩
    refine ⟨s, mem_sortedRows.mpr hs, ?_⟩
    rw [if_neg hused, hstore]
    exact List.mem_singleton_self _

theorem contents_of_rendered (h : rendered r = .ok built) : Contents r (provided r) := by
  obtain ⟨-, herrs, rfl⟩ := rendered_eq_ok h
  rw [append_errs, List.append_eq_nil_iff] at herrs
  have hbuilt : Errorless (buildObjects r (prepare r).value.1 (provided r)) := ⟨herrs.2⟩
  exact contents ⟨(errorless_bind.mp hbuilt).1.errs⟩

/-- The secrets looked up are those that variables refer to. -/
theorem used_iff_refers (h : rendered r = .ok built) :
    (ref.id, ref.key) ∈ (seen r (provided r)).used ↔ Refers r ref := by
  obtain ⟨hfirst, -, -⟩ := rendered_eq_ok h
  have hcontents := contents_of_rendered h
  obtain ⟨hsound, -⟩ := prepare_spec hfirst
  rw [hcontents.used]
  constructor
  · rintro ⟨c, hc, v, hv, hused⟩
    obtain ⟨hpiece, hout, -⟩ := mem_usedBy.mp hused
    exact ⟨(hsound.secret _ ((hsound.secrets _).mpr hout)).1, c, hc, v, hv, hpiece⟩
  · rintro ⟨⟨row, hrow, hid, htype⟩, c, hc, v, hv, hpiece⟩
    have hout : lookup (provided r).outputs ref.id = some .secret :=
      hid ▸ output_of_secret hfirst hrow htype
    obtain ⟨parts, -, hparts⟩ := hcontents.containers
    have hvars := (hparts c hc).1.accepted.errs
    obtain ⟨t, hlookup, -⟩ := infix_of_ref (envVar_accepted (accepted_of_envVars hvars hv)).1 hpiece
    have hkey : isSecretKey ref.key = true := by
      have hout' : lookup (scope r (provided r)).outputs ref.id = some .secret := hout
      simp only [Scope.lookup_output hout', Output.get] at hlookup
      by_contra hkey
      rw [if_neg hkey] at hlookup
      cases hlookup
    exact ⟨c, hc, v, hv, mem_usedBy.mpr ⟨hpiece, hout, hkey⟩⟩

/-- A reference to a secret is one that a variable refers to, and its resource and key have no zeros. -/
theorem refers_of_written (h : rendered r = .ok built) {c : String × Container}
    (hc : c ∈ r.workload.containers.rows) {v : String × String} (hv : v ∈ c.2.vars.rows)
    (href : ref ∈ atoms (r.written v.2)) : Refers r ref ∧ Clean ref := by
  have hused := used_of_written href
  have hrefers := (used_iff_refers h).mp (((contents_of_rendered h).used _).mpr ⟨c, hc, v, hv, hused⟩)
  obtain ⟨row, hrow, hid, -⟩ := hrefers.1
  have hlabel := r.workload.labels row hrow
  rw [hid] at hlabel
  exact ⟨hrefers, Referable.clean ⟨hlabel, (mem_usedBy.mp hused).2.2⟩⟩

/-- An output is in an external secret where a variable refers to it. -/
theorem secret_rendered_iff (h : rendered r = .ok built) : (∃ s ∈ built.objects, kindOf s = "ExternalSecret" ∧
    s.find ["spec", "target", "name"] = some (.str (secretName r.name ref.id)) ∧
      ∃ row ∈ items (s.find ["spec", "data"]), row.get "secretKey" = some (.str ref.key)) ↔ Refers r ref := by
  obtain ⟨hfirst, -, -⟩ := rendered_eq_ok h
  obtain ⟨hsound, -⟩ := prepare_spec hfirst
  have hpiece : ("ExternalSecret",
      (externalSecrets r (provided r) (seen r (provided r)).used).effects.objects) ∈ pieces r := by
    simp [pieces]
  have htarget (store : SecretStore) (id : String) (res : SecretRes) (keys : List String) :
      (externalSecret r store id res keys).find ["spec", "target", "name"] =
        some (.str (secretName r.name id)) := rfl
  have hdata (store : SecretStore) (id : String) (res : SecretRes) (keys : List String) :
      items ((externalSecret r store id res keys).find ["spec", "data"]) = keys.map (remoteRef res) := rfl
  rw [← used_iff_refers h]
  constructor
  · rintro ⟨s, hs, hkind, hname, row, hrow, hkey⟩
    obtain ⟨store, -, sr, hsr, -, rfl⟩ := mem_externalSecrets.mp ((mem_piece h hpiece).mpr ⟨hs, hkind⟩)
    rw [htarget] at hname
    have hid := secretName_injective r.name (Value.str.inj (Option.some.inj hname))
    rw [hdata] at hrow
    obtain ⟨k, hk, rfl⟩ := List.mem_map.mp hrow
    have hkey' : some (Value.str k) = some (Value.str ref.key) := hkey
    rw [← hid, ← Value.str.inj (Option.some.inj hkey')]
    exact mem_usedKeys.mp hk
  · intro hused
    obtain ⟨c, hc, v, hv, hlooked⟩ := ((contents_of_rendered h).used _).mp hused
    obtain ⟨-, hout, -⟩ := mem_usedBy.mp hlooked
    have hsome : (lookup (provided r).secrets ref.id).isSome = true := (hsound.secrets _).mpr hout
    obtain ⟨store, hstore⟩ := Option.isSome_iff_exists.mp (hsound.secret _ hsome).2
    obtain ⟨res, hres⟩ := Option.isSome_iff_exists.mp hsome
    obtain ⟨sr, hget, rfl⟩ := Option.map_eq_some_iff.mp hres
    obtain ⟨hmem, hid⟩ := Table.get_eq_some.mp hget
    have hkeys := mem_usedKeys.mpr hused
    have hmade : externalSecret r store ref.id sr.2 (usedKeys (seen r (provided r)).used ref.id) ∈
        (externalSecrets r (provided r) (seen r (provided r)).used).effects.objects := by
      apply mem_externalSecrets.mpr
      have hid' : sr.1 = ref.id := hid
      refine ⟨store, hstore, sr, hmem, ?_, ?_⟩
      · rw [hid']
        exact List.ne_nil_of_mem hkeys
      · rw [hid']
    obtain ⟨hs, hkind⟩ := (mem_piece h hpiece).mp hmade
    refine ⟨_, hs, hkind, htarget .., remoteRef sr.2 ref.key, ?_, rfl⟩
    rw [hdata]
    exact List.mem_map_of_mem hkeys

end Secrets

section Mounts
variable {r : Renderer} {p : Provided} {c : String × Container} {e : Effects} {mounts : List Mount}

/-- The mount paths of a container differ where none of its files is at a volume or at the temporary
directory it is given. -/
theorem nodup_paths_iff (h : MountsOf p (filesOut r p) c.1 c.2 e mounts) (hfiles : FilesMounted r (filesOut r p))
    (hc : c ∈ r.workload.containers.rows) : (mounts.map Mount.mountPath).Nodup ↔
      (∀ f ∈ c.2.files.rows, f.1 ∉ c.2.volumes.rows.map Prod.fst) ∧
      ("/tmp" ∈ c.2.files.rows.map Prod.fst → ∃ v ∈ c.2.volumes.rows, Text.cleanPath v.1 = "/tmp") := by
  have hkeys {V : Type} (m : Dict String V) {k : String} :
      k ∈ (sortedRows m).map Prod.fst ↔ k ∈ m.rows.map Prod.fst :=
    ((perm_sortBy Prod.fst m.rows).map Prod.fst).mem_iff
  have hany : ((sortedRows c.2.volumes).any fun v => Text.cleanPath v.1 = "/tmp") = true ↔
      ∃ v ∈ c.2.volumes.rows, Text.cleanPath v.1 = "/tmp" := by
    simp [mem_sortedRows]
  have hdisjoint : List.Disjoint ((sortedRows c.2.volumes).map Prod.fst) ((sortedRows c.2.files).map Prod.fst) ↔
      ∀ f ∈ c.2.files.rows, f.1 ∉ c.2.volumes.rows.map Prod.fst := by
    constructor
    · intro hapart f hf hv
      exact hapart ((hkeys _).mpr hv) ((hkeys _).mpr (List.mem_map_of_mem hf))
    · intro hapart k hv hk
      obtain ⟨f, hf, rfl⟩ := List.mem_map.mp ((hkeys _).mp hk)
      exact hapart f hf ((hkeys _).mp hv)
  have hboth : ((sortedRows c.2.volumes).map Prod.fst ++ (sortedRows c.2.files).map Prod.fst).Nodup ↔
      ∀ f ∈ c.2.files.rows, f.1 ∉ c.2.volumes.rows.map Prod.fst := by
    rw [List.nodup_append', hdisjoint]
    exact ⟨fun h => h.2.2, fun h => ⟨nodup_sortedRows _, nodup_sortedRows _, h⟩⟩
  rw [h.paths.nodup_iff, hfiles.paths c hc]
  by_cases htmp : ((sortedRows c.2.volumes).any fun v => Text.cleanPath v.1 = "/tmp") = true
  · rw [if_pos htmp, List.append_nil, hboth]
    exact ⟨fun h => ⟨h, fun _ => hany.mp htmp⟩, And.left⟩
  · rw [if_neg htmp, List.nodup_append', hboth, List.disjoint_singleton, List.mem_append, not_or, hkeys, hkeys]
    have hvolume : "/tmp" ∉ c.2.volumes.rows.map Prod.fst := by
      intro hmem
      obtain ⟨v, hv, hpath⟩ := List.mem_map.mp hmem
      refine htmp (hany.mpr ⟨v, hv, ?_⟩)
      rw [hpath]
      decide
    constructor
    · rintro ⟨hapart, -, -, hfile⟩
      exact ⟨hapart, fun hmem => absurd hmem hfile⟩
    · rintro ⟨hapart, hfile⟩
      exact ⟨hapart, List.nodup_singleton _, hvolume, fun hmem => htmp (hany.mpr (hfile hmem))⟩

end Mounts

section Objects
variable {r : Renderer} {built : Effects} {d o : Value} {parts : String × Container → ContainerParts}

/-- The rendered deployment: its containers and volumes. -/
theorem deployment_rendered (h : rendered r = .ok built) : deploymentOut r ∈ built.objects ∧
    kindOf (deploymentOut r) = "Deployment" ∧ ∀ d ∈ built.objects, kindOf d = "Deployment" → d = deploymentOut r := by
  have hpiece : ("Deployment", [deploymentOut r]) ∈ pieces r := by simp [pieces]
  obtain ⟨hmem, hkind⟩ := (mem_piece h hpiece).mp (List.mem_singleton_self _)
  exact ⟨hmem, hkind, fun d hd hkind => List.mem_singleton.mp ((mem_piece h hpiece).mpr ⟨hd, hkind⟩)⟩

theorem containers_rendered : podItems (deploymentOut r) "containers" = containersOut r (provided r) := by
  rw [deploymentOut, podItems_deployment, podOut, containers_podSpec]

theorem volumes_rendered : podItems (deploymentOut r) "volumes" =
    (podVolumes r (provided r) (filesOut r (provided r)) (seen r (provided r))).map PodVolume.toValue := by
  rw [deploymentOut, podItems_deployment, podOut, volumes_podSpec]

/-- A container of the deployment, with its row in the workload. -/
theorem container_rendered
    (hparts : containersOut r (provided r) =
      (sortedRows r.workload.containers).map fun c => containerObject r c.1 c.2 (parts c))
    (h : o ∈ podItems (deploymentOut r) "containers") :
    ∃ c ∈ r.workload.containers.rows, o = containerObject r c.1 c.2 (parts c) := by
  rw [containers_rendered, hparts] at h
  obtain ⟨c, hc, rfl⟩ := List.mem_map.mp h
  exact ⟨c, mem_sortedRows.mp hc, rfl⟩

theorem mountPath_toValue (m : Mount) : m.toValue.get "mountPath" = some (.str m.mountPath) := by
  simp [Mount.toValue, Value.get_cons]

/-- Every mount of a container is of a volume of the pod. -/
theorem volume_of_mount {c : String × Container} {e : Effects} {mounts : List Mount} {m : Mount}
    (h : MountsOf (provided r) (filesOut r (provided r)) c.1 c.2 e mounts)
    (hwithin : Within e (seen r (provided r))) (hfiles : FilesMounted r (filesOut r (provided r)))
    (hm : m ∈ mounts) :
    ∃ v ∈ podVolumes r (provided r) (filesOut r (provided r)) (seen r (provided r)), v.name = m.name := by
  unfold podVolumes
  rcases h.named m hm with ⟨id, hname, hlookup, hid⟩ | hfile | ⟨hname, hneed⟩
  · obtain ⟨v, hv⟩ := Option.isSome_iff_exists.mp hlookup
    obtain ⟨row, hget, rfl⟩ := Option.map_eq_some_iff.mp hv
    obtain ⟨hmem, rfl⟩ := Table.get_eq_some.mp hget
    refine ⟨⟨volumeName row.1, ("emptyDir", row.2)⟩, mem_sortBy.mpr (List.mem_append_right _ ?_), hname.symm⟩
    apply List.mem_map.mpr
    refine ⟨row, List.mem_filter.mpr ⟨mem_sortedRows.mpr hmem, ?_⟩, rfl⟩
    exact decide_eq_true (hwithin.usedVolumes hid)
  · obtain ⟨v, hv, hname⟩ := hfiles.volume _ m hfile
    refine ⟨v, mem_sortBy.mpr (List.mem_append_left _ (List.mem_append_right _ ?_)), hname⟩
    rw [hv]
    exact List.mem_singleton_self _
  · rw [hwithin.needTmp hneed]
    exact ⟨_, mem_sortBy.mpr (List.mem_append_left _ (List.mem_append_left _ (List.mem_singleton_self _))),
      hname.symm⟩

/-- The service, where the workload has ports. -/
theorem service_rendered (h : rendered r = .ok built) {port : String × ServicePort}
    (hport : port ∈ r.workload.ports.rows) : ∃ s ∈ built.objects, kindOf s = "Service" ∧
      s.find ["metadata", "name"] = some (.str r.name) ∧
      portObject port ∈ items (s.find ["spec", "ports"]) := by
  have hpiece : ("Service", (service r).effects.objects) ∈ pieces r := by simp [pieces]
  have hservice : (service r).effects.objects = [r.object "v1" "Service" r.name []
      [("spec", .map [("selector", r.selector),
        ("ports", .list ((sortedRows r.workload.ports).map portObject))])]] := by
    rw [service, if_neg (List.ne_nil_of_mem hport)]
    rfl
  obtain ⟨hs, hkind⟩ := (mem_piece h hpiece).mp (hservice ▸ List.mem_singleton_self _)
  exact ⟨_, hs, hkind, rfl, List.mem_map_of_mem (mem_sortedRows.mpr hport)⟩

/-- A route's port is one of the service's. -/
theorem route_rendered (h : rendered r = .ok built) (ho : o ∈ built.objects) (hkind : kindOf o = "HTTPRoute") :
    ∀ rule ∈ items (o.find ["spec", "rules"]), ∀ b ∈ items (rule.get "backendRefs"),
      ∃ s ∈ built.objects, kindOf s = "Service" ∧ s.find ["metadata", "name"] = b.get "name" ∧
        ∃ port ∈ items (s.find ["spec", "ports"]), port.get "port" = b.get "port" := by
  have hpiece : ("HTTPRoute", (prepare r).effects.objects) ∈ pieces r := by simp [pieces]
  have hmem := (mem_piece h hpiece).mpr ⟨ho, hkind⟩
  obtain ⟨hfirst, -, -⟩ := rendered_eq_ok h
  obtain ⟨-, routes, -, -, hroutes⟩ := prepare_spec hfirst
  obtain ⟨i, hi, rfl⟩ := List.mem_iff_getElem.mp hmem
  obtain ⟨gw, host, path, port, hroute, hport⟩ := hroutes.get (hroutes.length_eq ▸ hi) hi
  rw [List.get_eq_getElem] at hroute
  intro rule hrule b hb
  simp only [hroute] at hrule
  rw [List.mem_singleton.mp hrule] at hb
  rw [List.mem_singleton.mp hb]
  obtain ⟨named, hnamed, rfl⟩ := List.mem_map.mp hport
  obtain ⟨sp, hsp, rfl⟩ := List.mem_map.mp hnamed
  obtain ⟨s, hs, hkind, hname, hports⟩ := service_rendered h hsp
  exact ⟨s, hs, hkind, hname, _, hports, rfl⟩

/-- A monitored port is one of the service's. -/
theorem monitor_rendered (h : rendered r = .ok built) (ho : o ∈ built.objects)
    (hkind : kindOf o = "ServiceMonitor") : ∀ e ∈ items (o.find ["spec", "endpoints"]),
      ∃ s ∈ built.objects, kindOf s = "Service" ∧
        ∃ port ∈ items (s.find ["spec", "ports"]), port.get "name" = e.get "port" := by
  have hpiece : ("ServiceMonitor", (serviceMonitor r).effects.objects) ∈ pieces r := by simp [pieces]
  have hmem := (mem_piece h hpiece).mpr ⟨ho, hkind⟩
  intro e he
  unfold serviceMonitor at hmem
  split at hmem
  · cases hmem
  · next scrape _ =>
    split at hmem
    · cases hmem
    · next hport =>
      split at hmem
      · cases hmem
      · rw [List.mem_singleton.mp hmem] at he
        rw [List.mem_singleton.mp he]
        have hsome : (lookup r.ownPorts scrape.port).isSome = true := by
          simpa [Option.isSome_iff_ne_none] using hport
        obtain ⟨n, hn⟩ := Option.isSome_iff_exists.mp hsome
        obtain ⟨row, hget, -⟩ := Option.map_eq_some_iff.mp hn
        obtain ⟨hrow, hname⟩ := Table.get_eq_some.mp hget
        obtain ⟨sp, hsp, rfl⟩ := List.mem_map.mp hrow
        obtain ⟨s, hs, hkind, -, hports⟩ := service_rendered h hsp
        refine ⟨s, hs, hkind, _, hports, ?_⟩
        exact congrArg (fun name => some (Value.str name)) hname

/-- What is scaled is the deployment. -/
theorem scaler_rendered (h : rendered r = .ok built) (ho : o ∈ built.objects)
    (hkind : kindOf o = "HorizontalPodAutoscaler") : ∃ d ∈ built.objects,
      o.find ["spec", "scaleTargetRef", "kind"] = some (.str "Deployment") ∧ kindOf d = "Deployment" ∧
      o.find ["spec", "scaleTargetRef", "name"] = d.find ["metadata", "name"] := by
  have hpiece : ("HorizontalPodAutoscaler", (autoscaler r).effects.objects) ∈ pieces r := by simp [pieces]
  have hmem := (mem_piece h hpiece).mpr ⟨ho, hkind⟩
  obtain ⟨hdeployment, hkind, -⟩ := deployment_rendered h
  unfold autoscaler at hmem
  split at hmem
  · cases hmem
  · rw [List.mem_singleton.mp hmem]
    exact ⟨_, hdeployment, rfl, hkind, rfl⟩

theorem selects_selector : Selects r.selector (.map r.labels) := by
  refine ⟨[(labelName, .str r.name)], rfl, List.cons_ne_nil _ _, fun m hm => ?_⟩
  rw [List.mem_singleton.mp hm]
  rfl

/-- Every selector is the workload's own. -/
theorem selectors_rendered (h : rendered r = .ok built) (ho : o ∈ built.objects) :
    ∀ selector ∈ selectors o, selector = r.selector := by
  have hof (kind : String) (objects : List Value) (hp : (kind, objects) ∈ pieces r) (hkind : kindOf o = kind) :
      o ∈ objects := (mem_piece h hp).mpr ⟨ho, hkind⟩
  have hbudget (limit : String) (n : ℤ) : ∀ o ∈ (budget r limit n).effects.objects,
      (o.find ["spec", "selector", "matchLabels"]).toList = [r.selector] := by
    intro o ho
    rw [List.mem_singleton.mp ho]
    rfl
  intro selector hsel
  unfold selectors at hsel
  split at hsel
  · next hkind =>
    have hmem := hof "Service" (service r).effects.objects (by simp [pieces]) hkind
    unfold service at hmem
    split at hmem
    · cases hmem
    · rw [List.mem_singleton.mp hmem] at hsel
      exact List.mem_singleton.mp hsel
  · next hkind =>
    obtain ⟨-, -, hone⟩ := deployment_rendered h
    rw [hone o ho hkind] at hsel
    rcases List.mem_append.mp hsel with hsel | hsel
    · exact List.mem_singleton.mp hsel
    · obtain ⟨s, hs, hlabels⟩ := List.mem_filterMap.mp hsel
      rw [deploymentOut, podItems_deployment, podOut, spread_podSpec] at hs
      obtain ⟨topology, -, rfl⟩ := List.mem_map.mp hs
      exact (Option.some.inj hlabels).symm
  · next hkind =>
    have hmem := hof "PodDisruptionBudget" (disruptionBudget r).effects.objects
      (by simp [pieces]) hkind
    have hown : (o.find ["spec", "selector", "matchLabels"]).toList = [r.selector] := by
      unfold disruptionBudget at hmem
      dsimp only at hmem
      split at hmem
      · cases hmem
      · split at hmem
        · cases hmem
        · exact hbudget _ _ o hmem
      · exact hbudget _ _ o hmem
      · split at hmem <;> exact hbudget _ _ o hmem
    rw [hown] at hsel
    exact List.mem_singleton.mp hsel
  · next hkind =>
    have hmem := hof "ServiceMonitor" (serviceMonitor r).effects.objects
      (by simp [pieces]) hkind
    unfold serviceMonitor at hmem
    split at hmem
    · cases hmem
    · split at hmem
      · cases hmem
      · split at hmem
        · cases hmem
        · rw [List.mem_singleton.mp hmem] at hsel
          exact List.mem_singleton.mp hsel
  · cases hsel

end Objects

section Rendered
variable {r : Renderer} {built : Effects}

theorem hiddenFirst_rendered (h : rendered r = .ok built) : HiddenFirst r built.objects := by
  obtain ⟨-, -, hone⟩ := deployment_rendered h
  have hcontents := contents_of_rendered h
  obtain ⟨parts, hobjects, hparts⟩ := hcontents.containers
  intro d hd hkind o ho c hc hname v hv ref href
  rw [hone d hd hkind] at ho
  obtain ⟨c', hc', rfl⟩ := container_rendered hobjects ho
  rw [get_containerObject] at hname
  obtain rfl : c' = c := List.inj_on_of_nodup_map r.workload.containers.nodup hc' hc
    (Value.str.inj (Option.some.inj hname))
  obtain ⟨hspec, -⟩ := hparts c' hc'
  have hmem : ref ∈ embeddedRefs (scope r (provided r)) c'.2.vars :=
    List.mem_flatMap.mpr ⟨v, mem_sortedRows.mpr hv, href⟩
  obtain ⟨before, after, hsplit⟩ := List.append_of_mem (mem_sortedRows.mpr hv)
  have hnotSingle : ∀ other, splitRefs (substituted (scope r (provided r)) v.2) ≠ [.inr other] := by
    intro other hsingle
    rw [hsingle] at href
    cases href
  refine ⟨(hiddenEntries (embeddedRefs (scope r (provided r)) c'.2.vars) ++
      before.map (entry (scope r (provided r)))).map (EnvEntry.toValue r.name),
    (entry (scope r (provided r)) v).toValue r.name,
    (after.map (entry (scope r (provided r)))).map (EnvEntry.toValue r.name), ?_, ?_, ?_, ?_⟩
  · rw [env_containerObject, hspec.env, envVars_value hspec.accepted.errs, hsplit]
    simp only [List.map_append, List.map_cons, List.append_assoc]
  · rw [get_name_toValue, entry, name_envEntry]
  · rw [entry, envEntry_text hnotSingle]
    rfl
  · refine ⟨_, List.mem_map_of_mem (List.mem_append_left _ (mem_hiddenEntries hmem)), ?_⟩
    exact get_name_toValue

/-- Rendered objects refer only to what is among them if and only if no file is mounted where something
else is, and no letters of a variable form a marker of a secret that no variable refers to. -/
theorem linked_rendered_iff (h : rendered r = .ok built) : Linked built.objects ↔ Linkable r := by
  obtain ⟨hdeployment, hkind, hone⟩ := deployment_rendered h
  have hcontents := contents_of_rendered h
  obtain ⟨parts, hobjects, hparts⟩ := hcontents.containers
  have hrow {c : String × Container} (hc : c ∈ r.workload.containers.rows) :
      containerObject r c.1 c.2 (parts c) ∈ podItems (deploymentOut r) "containers" := by
    rw [containers_rendered, hobjects]
    exact List.mem_map_of_mem (mem_sortedRows.mpr hc)
  have hpaths {c : String × Container} (hc : c ∈ r.workload.containers.rows) :
      ((items ((containerObject r c.1 c.2 (parts c)).get "volumeMounts")).map fun m =>
        m.get "mountPath").Nodup ↔
      (∀ f ∈ c.2.files.rows, f.1 ∉ c.2.volumes.rows.map Prod.fst) ∧
      ("/tmp" ∈ c.2.files.rows.map Prod.fst → ∃ v ∈ c.2.volumes.rows, Text.cleanPath v.1 = "/tmp") := by
    rw [← nodup_paths_iff (hparts c hc).1.mounts hcontents.files hc, mounts_containerObject, List.map_map]
    have hcongr : ((parts c).mounts.map ((fun m => m.get "mountPath") ∘ Mount.toValue)) =
        ((parts c).mounts.map Mount.mountPath).map fun path => some (Value.str path) := by
      rw [List.map_map]
      exact List.map_congr_left fun m _ => mountPath_toValue m
    rw [hcongr]
    exact List.nodup_map_iff fun s s' heq => Value.str.inj (Option.some.inj heq)
  have hmarked {c : String × Container} (hc : c ∈ r.workload.containers.rows) (ref : Ref) :
      (∃ e ∈ items ((containerObject r c.1 c.2 (parts c)).get "env"), e.find ["valueFrom", "secretKeyRef"] =
        some (.map [("name", .str (secretName r.name ref.id)), ("key", .str ref.key)])) ↔
      Marked (scope r (provided r)) c.2.vars ref := by
    rw [← secret_mem_envVars (hparts c hc).1.accepted, ← (hparts c hc).1.env, env_containerObject]
    constructor
    · rintro ⟨e, he, hfind⟩
      obtain ⟨entry, hentry, rfl⟩ := List.mem_map.mp he
      obtain ⟨k, ref', rfl, hsame⟩ := find_secretKeyRef.mp hfind
      simp only [Value.map.injEq, List.cons.injEq, Prod.mk.injEq, Value.str.injEq, true_and, and_true] at hsame
      obtain ⟨hid, hkey⟩ := hsame
      have href : ref = ref' := by
        obtain ⟨id, key⟩ := ref
        obtain ⟨id', key'⟩ := ref'
        exact congrArg₂ Ref.mk (secretName_injective r.name hid) hkey
      exact ⟨k, href ▸ hentry⟩
    · rintro ⟨name, hmem⟩
      exact ⟨_, List.mem_map_of_mem hmem, find_secretKeyRef.mpr ⟨name, ref, rfl, rfl⟩⟩
  have htaken {c : String × Container} (hc : c ∈ r.workload.containers.rows) :=
    forall_marked_iff (P := Refers r)
      (fun v hv => (envVar_accepted (accepted_of_envVars (hparts c hc).1.accepted.errs hv)).1)
      (fun v hv ref href => (refers_of_written h hc hv href).2)
      fun v hv ref href => (refers_of_written h hc hv href).1
  constructor
  · intro hlinked
    have hsecrets {c : String × Container} (hc : c ∈ r.workload.containers.rows) :
        ∀ ref, Marked (scope r (provided r)) c.2.vars ref → Refers r ref := by
      intro ref hmark
      obtain ⟨e, he, hfind⟩ := (hmarked hc ref).mpr hmark
      exact (secret_rendered_iff h).mp (hlinked.secrets _ hdeployment hkind _ (hrow hc) e he _ hfind)
    have hnodup {c : String × Container} (hc : c ∈ r.workload.containers.rows) :=
      (hpaths hc).mp (hlinked.paths _ hdeployment hkind _ (hrow hc))
    constructor
    · exact fun c hc => (hnodup hc).1
    · exact fun c hc => (hnodup hc).2
    · exact fun c hc => ((htaken hc).mp (hsecrets hc)).1
    · exact fun c hc => ((htaken hc).mp (hsecrets hc)).2
  · intro hlinkable
    constructor
    · intro d hd hkind o ho m hm
      rw [hone d hd hkind] at ho ⊢
      obtain ⟨c, hc, rfl⟩ := container_rendered hobjects ho
      rw [mounts_containerObject] at hm
      obtain ⟨mount, hmount, rfl⟩ := List.mem_map.mp hm
      obtain ⟨hspec, hwithin⟩ := hparts c hc
      obtain ⟨v, hv, hname⟩ := volume_of_mount hspec.mounts hwithin hcontents.files hmount
      rw [volumes_rendered]
      exact ⟨_, List.mem_map_of_mem hv, v.name, rfl, by rw [hname]; rfl⟩
    · intro d hd hkind o ho
      rw [hone d hd hkind] at ho
      obtain ⟨c, hc, rfl⟩ := container_rendered hobjects ho
      exact (hpaths hc).mpr ⟨hlinkable.apart c hc, hlinkable.tmp c hc⟩
    · intro d hd hkind o ho e he ref hfind
      rw [hone d hd hkind] at ho
      obtain ⟨c, hc, rfl⟩ := container_rendered hobjects ho
      rw [env_containerObject] at he
      obtain ⟨entry, hentry, rfl⟩ := List.mem_map.mp he
      obtain ⟨k, ref, rfl, rfl⟩ := find_secretKeyRef.mp hfind
      rw [(hparts c hc).1.env] at hentry
      have hmark := (secret_mem_envVars (hparts c hc).1.accepted).mp ⟨k, hentry⟩
      have hrefers := (htaken hc).mpr ⟨hlinkable.whole c hc, hlinkable.formed c hc⟩
      exact (secret_rendered_iff h).mpr (hrefers ref hmark)
    · exact fun o ho hkind => route_rendered h ho hkind
    · exact fun o ho hkind => monitor_rendered h ho hkind
    · exact fun o ho hkind => scaler_rendered h ho hkind
    · intro o ho selector hsel
      rw [selectors_rendered h ho selector hsel]
      exact ⟨_, hdeployment, hkind, _, rfl, selects_selector⟩

/-- A workload rendered without patches and raw files refers only to what is there if and only if no file
is mounted where something else is, and no letters of a variable form a marker of a secret that no variable
refers to. -/
theorem render_linked_iff {lib : ScoreGo} {yaml : Yaml} {i : Input} {res : Result} {ns : String}
    (hpatches : i.patches = []) (hraw : i.raw = []) (h : render lib yaml i = .ok res)
    (hns : i.env.namespaceFor i.workload.name = .ok ns) :
    Linked res.objects ∧ HiddenFirst (i.renderer lib ns) res.objects ↔ Linkable (i.renderer lib ns) := by
  obtain ⟨ns', built, hns', hbuilt, hobjects, -⟩ := render_eq_ok h
  obtain rfl := Except.ok.inj (hns.symm.trans hns')
  have hmem : ∀ o, o ∈ built.objects ↔ o ∈ res.objects := by
    intro o
    rw [hobjects, hpatches, hraw, addRaw, List.foldl_nil, List.append_nil, applyPatches]
    exact mem_sortBy.symm
  have hhidden : HiddenFirst (i.renderer lib ns) res.objects :=
    fun d hd => hiddenFirst_rendered hbuilt d ((hmem d).mpr hd)
  rw [← linked_rendered_iff hbuilt]
  constructor
  · exact fun h => h.1.congr fun o => (hmem o).symm
  · exact fun h => ⟨h.congr hmem, hhidden⟩

end Rendered

section Runs

/-- A container with a file. -/
def fileInput (target : String) : Input :=
  inputOf { smallInput.workload with
    containers := ⟨[("main", { smallContainer with
      files := ⟨[(target, ⟨some "x", none, none, none⟩)], List.nodup_singleton _⟩ })],
      List.nodup_singleton _⟩ } smallEnv

theorem render_linked_iff_configFile : ∃ res, render mapsLib smallYaml (fileInput "/etc/app.conf") = .ok res ∧
    ∃ ns, (fileInput "/etc/app.conf").env.namespaceFor (fileInput "/etc/app.conf").workload.name = .ok ns ∧
      (Linked res.objects ∧ HiddenFirst ((fileInput "/etc/app.conf").renderer mapsLib ns) res.objects ↔
        Linkable ((fileInput "/etc/app.conf").renderer mapsLib ns)) := by
  have hok : (render mapsLib smallYaml (fileInput "/etc/app.conf")).isOk = true := by decide
  have h := Transition.eq_ok_of_isOk (s := ⟨[], [], []⟩) hok
  obtain ⟨ns, -, hns, -⟩ := render_eq_ok h
  exact ⟨_, h, ns, hns, render_linked_iff rfl rfl h hns⟩

def clashingMounts (d : Value) : Bool :=
  kindOf d = "Deployment" && (podItems d "containers").any fun c =>
    decide (¬ ((items (c.get "volumeMounts")).map fun m => m.get "mountPath").Nodup)

/-- A file at the place of the temporary directory: the container has two mounts there. -/
theorem tmpFile_mounted_twice : ∃ res, render mapsLib smallYaml (fileInput "/tmp") = .ok res ∧
    ¬ Linked res.objects := by
  have hok : (render mapsLib smallYaml (fileInput "/tmp")).isOk = true := by decide
  have hclash : (render mapsLib smallYaml (fileInput "/tmp")).toOption.any
      (fun res => res.objects.any clashingMounts) = true := by decide
  have h := Transition.eq_ok_of_isOk (s := ⟨[], [], []⟩) hok
  refine ⟨_, h, fun hlinked => ?_⟩
  rw [h] at hclash
  obtain ⟨d, hd, hmounts⟩ := List.any_eq_true.mp hclash
  obtain ⟨hkind, hcontainers⟩ := Bool.and_eq_true_iff.mp hmounts
  obtain ⟨c, hc, htwice⟩ := List.any_eq_true.mp hcontainers
  exact of_decide_eq_true htwice (hlinked.paths d hd (of_decide_eq_true hkind) c hc)

end Runs
end Kubeast.Render
