import Kubeast.Render.Passes

/-! What the containers of a workload hold, where the renderer accepts them. -/
namespace Kubeast.Render
open Sorted Words

section Secrets
variable {scope : Scope} {ps : List Piece} {path : List String} {s id key : String} {piece : Piece}

theorem secretOutput_eq_some : secretOutput scope path = some (id, key) ↔
    path = ["resources", id, key] ∧ lookup scope.outputs id = some .secret ∧ isSecretKey key = true := by
  constructor
  · intro h
    unfold secretOutput at h
    split at h
    · split at h
      · next hout =>
        split at h
        · next hkey =>
          cases h
          exact ⟨rfl, hout, hkey⟩
        · cases h
      · cases h
    · cases h
  · rintro ⟨rfl, hout, hkey⟩
    simp [secretOutput, hout, hkey]

theorem mem_usedBy : (id, key) ∈ usedBy scope ps ↔ Piece.ref ["resources", id, key] ∈ ps ∧
    lookup scope.outputs id = some .secret ∧ isSecretKey key = true := by
  rw [usedBy, List.mem_filterMap]
  constructor
  · rintro ⟨piece, hmem, hpiece⟩
    cases piece with
    | text t => cases hpiece
    | ref path =>
      obtain ⟨rfl, hsecret⟩ := secretOutput_eq_some.mp hpiece
      exact ⟨hmem, hsecret⟩
  · rintro ⟨hmem, hsecret⟩
    exact ⟨_, hmem, secretOutput_eq_some.mpr ⟨rfl, hsecret⟩⟩

/-- The pieces of a text that is substituted. -/
theorem substPieces_cons (hok : substPieces scope (piece :: ps) = .ok s) : ∃ t u, s = t ++ u ∧
    substPieces scope ps = .ok u ∧ ∀ path, piece = .ref path → scope.lookup path = .ok t := by
  cases hps : substPieces scope ps with
  | error es =>
    cases piece with
    | text t => rw [substPieces, hps] at hok; cases hok
    | ref path =>
      cases hlookup : scope.lookup path <;> rw [substPieces, hlookup, hps] at hok <;> cases hok
  | ok u =>
    cases piece with
    | text t =>
      rw [substPieces, hps] at hok
      refine ⟨t, u, (Except.ok.inj hok).symm, rfl, ?_⟩
      rintro path ⟨⟩
    | ref path =>
      cases hlookup : scope.lookup path with
      | error e => rw [substPieces, hlookup, hps] at hok; cases hok
      | ok t =>
        rw [substPieces, hlookup, hps] at hok
        refine ⟨t, u, (Except.ok.inj hok).symm, rfl, ?_⟩
        rintro path' ⟨⟩
        exact hlookup

/-- What a reference is looked up as is in the text. -/
theorem infix_of_ref (hok : substPieces scope ps = .ok s) (hmem : Piece.ref path ∈ ps) :
    ∃ t, scope.lookup path = .ok t ∧ t.toList <:+: s.toList := by
  induction ps generalizing s with
  | nil => cases hmem
  | cons piece ps ih =>
    obtain ⟨t, u, rfl, hps, hpiece⟩ := substPieces_cons hok
    rw [String.toList_append]
    rcases List.mem_cons.mp hmem with heq | hmem
    · exact ⟨t, hpiece path heq.symm, (List.prefix_append ..).isInfix⟩
    · obtain ⟨t', hlookup, hinfix⟩ := ih hps hmem
      exact ⟨t', hlookup, hinfix.trans (List.suffix_append ..).isInfix⟩

/-- A secret that a text looks up is in what it is substituted by. -/
theorem hasSecret_of_used (hok : substPieces scope ps = .ok s) (hused : (id, key) ∈ usedBy scope ps) :
    hasSecret (.str s) = true := by
  obtain ⟨hmem, hout, hkey⟩ := mem_usedBy.mp hused
  obtain ⟨t, hlookup, hinfix⟩ := infix_of_ref hok hmem
  simp only [Scope.lookup_output hout, Output.get, if_pos hkey] at hlookup
  obtain rfl := Except.ok.inj hlookup
  rw [hasSecret, decide_eq_true_iff]
  refine List.IsInfix.trans ?_ hinfix
  rw [asText, secretMarker]
  simp only [String.toList_append, List.append_assoc]
  exact (List.prefix_append ..).isInfix

end Secrets

section Errors
variable {α β : Type} {x : Built α} {f : α → Built β} {a : α} {format : String} {args : List Value}
  {causes : List Message}

/-- A step without errors. -/
structure Errorless (x : Built α) : Prop where
  errs : x.effects.errs = []

theorem errorless_bind : Errorless (x >>= f) ↔ Errorless x ∧ Errorless (f x.value) := by
  constructor
  · rintro ⟨h⟩
    rw [bind_effects, append_errs, List.append_eq_nil_iff] at h
    exact ⟨⟨h.1⟩, ⟨h.2⟩⟩
  · rintro ⟨⟨h⟩, ⟨h'⟩⟩
    exact ⟨by rw [bind_effects, append_errs, h, h']; rfl⟩

theorem not_errorless_fail {g : Unit → Built β} : ¬ Errorless (Built.fail format args causes >>= g) := by
  intro h
  have hfail := (errorless_bind.mp h).1.errs
  rw [fail_errs] at hfail
  cases hfail

theorem errorless_forEach {l : List α} {f : α → Built (Option β)} (h : Errorless (Built.forEach l f))
    (ha : a ∈ l) : Errorless (f a) := ⟨errs_of_forEach h.errs ha⟩

/-- A step that gives a value and looks no secret up. -/
structure Secretless (x : Built (Option α)) : Prop where
  some : x.value.isSome = true
  used : x.effects.used = []

theorem secretless_pure : Secretless (pure (some a)) := ⟨rfl, rfl⟩

end Errors

section Files
variable {r : Renderer} {p : Provided} {cname target text : String} {i : ℕ} {f : ContainerFile}

theorem subst_value : (subst (scope r p) text).value = substPieces (scope r p) (r.lib.scan text) := rfl

theorem subst_used : (subst (scope r p) text).effects.used = usedBy (scope r p) (r.lib.scan text) := rfl

/-- A file that is accepted refers to no secret. -/
theorem secretless_fileContent (h : Errorless (fileContent r p cname target f)) :
    Secretless (fileContent r p cname target f) := by
  unfold fileContent at h ⊢
  split
  · next content hcontent =>
    rw [hcontent] at h
    dsimp only at h
    split
    · exact secretless_pure
    · next hexpand =>
      rw [if_neg hexpand] at h
      have hrest := (errorless_bind.mp h).2
      rw [subst_value] at hrest
      cases hsubst : substPieces (scope r p) (r.lib.scan content) with
      | error causes =>
        rw [hsubst] at hrest
        exact absurd hrest not_errorless_fail
      | ok s =>
        rw [hsubst] at hrest
        dsimp only at hrest
        split at hrest
        · exact absurd hrest not_errorless_fail
        · next hsecret =>
          have hused : usedBy (scope r p) (r.lib.scan content) = [] := by
            rw [List.eq_nil_iff_forall_not_mem]
            rintro ⟨id, key⟩ hmem
            exact hsecret (hasSecret_of_used hsubst hmem)
          constructor
          · rw [bind_value, subst_value, hsubst]
            dsimp only
            rw [if_neg hsecret]
            rfl
          · rw [bind_effects, append_used, subst_used, hused, subst_value, hsubst]
            dsimp only
            rw [if_neg hsecret]
            rfl
  · exact secretless_pure
  · next hnone hbinary =>
    rw [hnone, hbinary] at h
    exact absurd h not_errorless_fail

/-- The entry of a file that is accepted. -/
theorem fileEntry_accepted (h : Errorless (fileEntry r p cname target i f)) :
    Secretless (fileEntry r p cname target i f) ∧ ∀ e, (fileEntry r p cname target i f).value = some e →
      e.container = cname ∧ e.target = target := by
  unfold fileEntry at h ⊢
  obtain ⟨hcontent, hrest⟩ := errorless_bind.mp h
  have hplain := secretless_fileContent hcontent
  obtain ⟨content, hvalue⟩ := Option.isSome_iff_exists.mp hplain.some
  rw [hvalue] at hrest
  dsimp only at hrest
  split at hrest
  · exact absurd hrest not_errorless_fail
  · next hmode =>
    refine ⟨⟨?_, ?_⟩, fun e he => ?_⟩
    · rw [bind_value, hvalue]
      rfl
    · rw [bind_effects, append_used, hplain.used, hvalue]
      rfl
    · rw [bind_value, hvalue] at he
      obtain rfl := Option.some.inj he
      exact ⟨rfl, rfl⟩

/-- The files of all containers. -/
def fileRows (r : Renderer) : List (String × String × ℕ × ContainerFile) :=
  (sortedRows r.workload.containers).flatMap fun c => filesOf c.1 c.2

theorem fileEntries_accepted (h : Errorless (fileEntries r p)) :
    (fileEntries r p).effects.used = [] ∧
    (fileEntries r p).value.map (fun e => (e.container, e.target)) =
      (fileRows r).map fun f => (f.1, f.2.1) := by
  have hfiles : fileEntries r p = Built.forEach (fileRows r) fun f =>
    fileEntry r p f.1 f.2.1 f.2.2.1 f.2.2.2 := rfl
  rw [hfiles] at h
  have hone : ∀ f ∈ fileRows r, Errorless (fileEntry r p f.1 f.2.1 f.2.2.1 f.2.2.2) :=
    fun f hf => errorless_forEach (f := fun f => fileEntry r p f.1 f.2.1 f.2.2.1 f.2.2.2) h hf
  constructor
  · rw [hfiles, forEach_used, List.flatMap_eq_nil_iff]
    exact fun row hrow => (fileEntry_accepted (hone row hrow)).1.used
  · rw [hfiles, forEach_value, List.map_flatMap, ← List.flatMap_pure_eq_map]
    apply List.flatMap_congr
    intro row hrow
    obtain ⟨hplain, hentry⟩ := fileEntry_accepted (hone row hrow)
    obtain ⟨e, he⟩ := Option.isSome_iff_exists.mp hplain.some
    obtain ⟨hcontainer, htarget⟩ := hentry e he
    rw [he, Option.toList_some, List.map_singleton, hcontainer, htarget]
    rfl

/-- The parts under one key, where each key is there once. -/
theorem filter_flatMap_key {K A B : Type} [DecidableEq K] {l : List (K × A)} (hnodup : (l.map Prod.fst).Nodup)
    (f : A → List B) {k : K} {a : A} (hmem : (k, a) ∈ l) :
    (l.flatMap fun c => (f c.2).map (Prod.mk c.1)).filter (fun x => x.1 = k) = (f a).map (Prod.mk k) := by
  induction l with
  | nil => cases hmem
  | cons c l ih =>
    obtain ⟨k', a'⟩ := c
    rw [List.map_cons, List.nodup_cons] at hnodup
    rw [List.flatMap_cons, List.filter_append]
    have hall (k'' : K) (bs : List B) (heq : k'' = k) :
        (bs.map (Prod.mk k'')).filter (fun x => x.1 = k) = bs.map (Prod.mk k'') := by
      rw [List.filter_eq_self]
      intro x hx
      obtain ⟨b, -, rfl⟩ := List.mem_map.mp hx
      exact decide_eq_true heq
    have hnone (k'' : K) (bs : List B) (hne : k'' ≠ k) :
        (bs.map (Prod.mk k'')).filter (fun x => x.1 = k) = [] := by
      rw [List.filter_eq_nil_iff]
      intro x hx
      obtain ⟨b, -, rfl⟩ := List.mem_map.mp hx
      simpa using hne
    rcases List.mem_cons.mp hmem with heq | hmem
    · cases heq
      have hrest : (l.flatMap fun c => (f c.2).map (Prod.mk c.1)).filter (fun x => x.1 = k) = [] := by
        rw [List.filter_flatMap, List.flatMap_eq_nil_iff]
        intro c hc
        apply hnone
        rintro rfl
        exact hnodup.1 (List.mem_map.mpr ⟨c, hc, rfl⟩)
      rw [hall k (f a) rfl, hrest, List.append_nil]
    · have hne : k' ≠ k := by
        rintro rfl
        exact hnodup.1 (List.mem_map.mpr ⟨_, hmem, rfl⟩)
      rw [hnone k' (f a') hne, List.nil_append, ih hnodup.2 hmem]

/-- The mounts of a container's files. -/
def fileMounts (files : FilesOut) (cname : String) : List Mount :=
  (files.mounts.filter fun m => m.1 = cname).map Prod.snd

/-- Each file of a container is mounted once, from the volume of the files. -/
structure FilesMounted (r : Renderer) (files : FilesOut) : Prop where
  paths : ∀ c ∈ r.workload.containers.rows,
    (fileMounts files c.1).map Mount.mountPath = (sortedRows c.2.files).map Prod.fst
  volume : ∀ cname, ∀ m ∈ fileMounts files cname, ∃ v, files.volume = some v ∧ v.name = m.name

theorem files_accepted (h : Errorless (files r p)) :
    (files r p).effects.used = [] ∧ FilesMounted r (files r p).value := by
  have hentries := (errorless_bind.mp h).1
  obtain ⟨hused, hvalue⟩ := fileEntries_accepted hentries
  have hmounts : (files r p).value.mounts =
      (fileEntries r p).value.map fun f => (f.container, f.mount) := by
    rw [files, bind_value]
    split
    · next hnil => rw [hnil]; rfl
    · rfl
  have hpaths : (files r p).value.mounts.map (fun m => (m.1, m.2.mountPath)) =
      (sortedRows r.workload.containers).flatMap fun c =>
        ((sortedRows c.2.files).map Prod.fst).map (Prod.mk c.1) := by
    rw [hmounts, List.map_map]
    refine hvalue.trans ?_
    rw [fileRows, List.map_flatMap]
    apply List.flatMap_congr
    intro c _
    rw [filesOf, List.map_map, List.map_map]
    conv_rhs => rw [← List.zipIdx_map_fst 0 (sortedRows c.2.files), List.map_map]
    rfl
  refine ⟨?_, ?_, ?_⟩
  · rw [files, bind_effects, append_used, hused, List.nil_append]
    dsimp only
    split <;> rfl
  · intro c hc
    have hkey := filter_flatMap_key (nodup_sortedRows r.workload.containers)
      (fun c => (sortedRows c.files).map Prod.fst) (mem_sortedRows.mpr hc)
    rw [← hpaths, List.filter_map] at hkey
    have hsnd := congrArg (List.map Prod.snd) hkey
    rw [List.map_map, List.map_map] at hsnd
    rw [fileMounts, List.map_map]
    refine hsnd.trans ?_
    conv_rhs => rw [← List.map_id ((sortedRows c.2.files).map Prod.fst)]
    rfl
  · intro cname m hm
    obtain ⟨x, hx, rfl⟩ := List.mem_map.mp hm
    have hmem := List.mem_of_mem_filter hx
    rw [hmounts] at hmem
    obtain ⟨e, he, rfl⟩ := List.mem_map.mp hmem
    rw [files, bind_value]
    split
    · next hnil => rw [hnil] at he; cases he
    · exact ⟨_, rfl, rfl⟩

end Files

section Mounts
variable {p : Provided} {cname target : String} {v : ContainerVolume} {c : Container} {files : FilesOut}

/-- A mounted volume of the container. -/
structure MountsVolume (p : Provided) (target : String) (used : List String) (m : Mount) : Prop where
  path : m.mountPath = target
  volume : ∃ id, m.name = volumeName id ∧ (lookup p.volumes id).isSome = true ∧ id ∈ used

theorem volumeMount_accepted (h : Errorless (volumeMount p cname target v)) :
    ∃ m, (volumeMount p cname target v).value = some m ∧
      MountsVolume p target (volumeMount p cname target v).effects.usedVolumes m := by
  unfold volumeMount at h ⊢
  split at h
  · exact absurd h not_errorless_fail
  · next id hid =>
    split at h
    · exact absurd h not_errorless_fail
    · next hsome =>
      rw [if_neg hsome]
      have hlookup : (lookup p.volumes id).isSome = true := by simpa [Option.isSome_iff_ne_none] using hsome
      exact ⟨_, rfl, rfl, id, rfl, hlookup, List.mem_append_left _ (List.mem_singleton_self id)⟩

/-- The mounts that a container is given: its volumes, its files, and a temporary directory where no
volume is one. -/
structure MountsOf (p : Provided) (files : FilesOut) (cname : String) (c : Container) (e : Effects)
    (mounts : List Mount) : Prop where
  paths : (mounts.map Mount.mountPath).Perm ((sortedRows c.volumes).map Prod.fst ++
    (fileMounts files cname).map Mount.mountPath ++
      if (sortedRows c.volumes).any (fun v => Text.cleanPath v.1 = "/tmp") then [] else ["/tmp"])
  named : ∀ m ∈ mounts, (∃ id, m.name = volumeName id ∧ (lookup p.volumes id).isSome = true ∧
    id ∈ e.usedVolumes) ∨ m ∈ fileMounts files cname ∨ m.name = "tmp" ∧ e.needTmp = true

/-- What is mounted by one step is mounted by another. -/
structure Within (e e' : Effects) : Prop where
  usedVolumes : e.usedVolumes ⊆ e'.usedVolumes
  needTmp : e.needTmp = true → e'.needTmp = true

theorem within_left {α β : Type} {x : Built α} {f : α → Built β} :
    Within x.effects (x >>= f).effects where
  usedVolumes := List.subset_append_left ..
  needTmp h := by rw [bind_effects, append_needTmp, h, Bool.true_or]

theorem within_right {α β : Type} {x : Built α} {f : α → Built β} :
    Within (f x.value).effects (x >>= f).effects where
  usedVolumes := List.subset_append_right ..
  needTmp h := by rw [bind_effects, append_needTmp, h, Bool.or_true]

theorem within_forEach {α β : Type} {l : List α} {f : α → Built (Option β)} {a : α} (ha : a ∈ l) :
    Within (f a).effects (Built.forEach l f).effects where
  usedVolumes id hid := by
    rw [forEach_usedVolumes]
    exact List.mem_flatMap.mpr ⟨a, ha, hid⟩
  needTmp := needTmp_forEach ha

theorem Within.trans {e e' e'' : Effects} (h : Within e e') (h' : Within e' e'') : Within e e'' :=
  ⟨fun _ hid => h'.usedVolumes (h.usedVolumes hid), fun hneed => h'.needTmp (h.needTmp hneed)⟩

theorem MountsOf.mono {e e' : Effects} {mounts : List Mount} (h : MountsOf p files cname c e mounts)
    (h' : Within e e') : MountsOf p files cname c e' mounts where
  paths := h.paths
  named m hm := by
    rcases h.named m hm with ⟨id, hname, hlookup, hid⟩ | hfile | ⟨hname, hneed⟩
    · exact Or.inl ⟨id, hname, hlookup, h'.usedVolumes hid⟩
    · exact Or.inr (Or.inl hfile)
    · exact Or.inr (Or.inr ⟨hname, h'.needTmp hneed⟩)

theorem used_volumeMounts : (volumeMounts p cname c files).effects.used = [] := by
  have hone (target : String) (v : ContainerVolume) :
      (volumeMount p cname target v).effects.used = [] := by
    unfold volumeMount
    split
    · exact (silent_refusal ..).used
    · split
      · exact (silent_refusal ..).used
      · rfl
  have hloop : (Built.forEach (sortedRows c.volumes) fun v => volumeMount p cname v.1 v.2).effects.used =
      [] := by
    rw [forEach_used, List.flatMap_eq_nil_iff]
    exact fun v _ => hone v.1 v.2
  rw [volumeMounts, bind_effects, append_used, hloop]
  dsimp only
  split <;> rfl

theorem volumeMounts_accepted (h : Errorless (volumeMounts p cname c files)) :
    MountsOf p files cname c (volumeMounts p cname c files).effects
      (volumeMounts p cname c files).value := by
  unfold volumeMounts at h ⊢
  have hfound := (errorless_bind.mp h).1
  have hone : ∀ v ∈ sortedRows c.volumes, ∃ m, (volumeMount p cname v.1 v.2).value = some m ∧
      MountsVolume p v.1 (volumeMount p cname v.1 v.2).effects.usedVolumes m := by
    intro v hv
    have hmount : Errorless (volumeMount p cname v.1 v.2) := errorless_forEach (a := v) hfound hv
    exact volumeMount_accepted hmount
  have hpaths : (Built.forEach (sortedRows c.volumes) fun v => volumeMount p cname v.1 v.2).value.map
      Mount.mountPath = (sortedRows c.volumes).map Prod.fst := by
    rw [forEach_value, List.map_flatMap, ← List.flatMap_pure_eq_map]
    apply List.flatMap_congr
    intro v hv
    obtain ⟨m, hm, hmount⟩ := hone v hv
    rw [hm, Option.toList_some, List.map_singleton, hmount.path]
    rfl
  have hnamed : ∀ m ∈ (Built.forEach (sortedRows c.volumes) fun v => volumeMount p cname v.1 v.2).value,
      ∃ id, m.name = volumeName id ∧ (lookup p.volumes id).isSome = true ∧ id ∈
        (Built.forEach (sortedRows c.volumes) fun v => volumeMount p cname v.1 v.2).effects.usedVolumes := by
    intro m hm
    rw [forEach_value] at hm
    obtain ⟨v, hv, hm⟩ := List.mem_flatMap.mp hm
    obtain ⟨m', hm', hmount⟩ := hone v hv
    rw [hm', Option.mem_toList] at hm
    obtain rfl := Option.some.inj hm
    obtain ⟨id, hname, hlookup, hid⟩ := hmount.volume
    rw [forEach_usedVolumes]
    exact ⟨id, hname, hlookup, List.mem_flatMap.mpr ⟨v, hv, hid⟩⟩
  have htmp : ((Built.forEach (sortedRows c.volumes) fun v => volumeMount p cname v.1 v.2).value.any
      fun m => Text.cleanPath m.mountPath = "/tmp") =
        (sortedRows c.volumes).any fun v => Text.cleanPath v.1 = "/tmp" := by
    have hany := congrArg (List.any · fun path => Text.cleanPath path = "/tmp") hpaths
    simpa only [List.any_map, Function.comp_def] using hany
  rw [bind_value, bind_effects]
  generalize Built.forEach (sortedRows c.volumes) (fun v => volumeMount p cname v.1 v.2) = found at *
  dsimp only
  rw [htmp]
  split
  · next hany =>
    constructor
    · rw [hany, if_pos rfl, List.append_nil, ← hpaths, fileMounts, ← List.map_append]
      exact (perm_sortBy _ _).map _
    · intro m hm
      rcases List.mem_append.mp (mem_sortBy.mp hm) with hm | hm
      · obtain ⟨id, hname, hlookup, hid⟩ := hnamed m hm
        exact Or.inl ⟨id, hname, hlookup, List.mem_append_left _ hid⟩
      · exact Or.inr (Or.inl hm)
  · next hany =>
    constructor
    · have htmps : ["/tmp"] = [tmpMount].map Mount.mountPath := rfl
      rw [if_neg hany, ← hpaths, fileMounts, htmps, ← List.map_append, ← List.map_append]
      exact (perm_sortBy _ _).map _
    · intro m hm
      rcases List.mem_append.mp (mem_sortBy.mp hm) with hm | hm
      · rcases List.mem_append.mp hm with hm | hm
        · obtain ⟨id, hname, hlookup, hid⟩ := hnamed m hm
          exact Or.inl ⟨id, hname, hlookup, List.mem_append_left _ hid⟩
        · exact Or.inr (Or.inl hm)
      · rw [List.mem_singleton.mp hm]
        refine Or.inr (Or.inr ⟨rfl, ?_⟩)
        rw [append_needTmp]
        exact Bool.or_true _

end Mounts

section Containers
variable {r : Renderer} {p : Provided} {cname : String} {c : Container} {files : FilesOut}
  {port : ℤ} {vars : Dict String String} {s : Scope} {used : String × String}

theorem used_envVar {name text : String} (h : Errorless (envVar s cname name text)) :
    (envVar s cname name text).effects.used = usedBy s (s.lib.scan text) := by
  unfold envVar at h ⊢
  split
  · next hpre =>
    rw [if_pos hpre] at h
    exact absurd h not_errorless_fail
  · next hpre =>
    rw [if_neg hpre] at h
    have hrest := (errorless_bind.mp h).2
    rw [bind_effects, append_used]
    cases hsubst : (subst s text).value with
    | error causes =>
      rw [hsubst] at hrest
      exact absurd hrest not_errorless_fail
    | ok v => exact List.append_nil _

/-- The secrets that a container's variables look up. -/
theorem used_envVars (h : Errorless (envVars s cname vars)) :
    used ∈ (envVars s cname vars).effects.used ↔ ∃ v ∈ vars.rows, used ∈ usedBy s (s.lib.scan v.2) := by
  unfold envVars at h ⊢
  have hloop := (errorless_bind.mp h).1
  have hone : ∀ v ∈ sortedRows vars,
      (envVar s cname v.1 v.2).effects.used = usedBy s (s.lib.scan v.2) := by
    intro v hv
    have hvar : Errorless (envVar s cname v.1 v.2) := errorless_forEach (a := v) hloop hv
    exact used_envVar hvar
  have hpure : ∀ (e : Effects), (e ++ Effects.none).used = e.used := fun e => List.append_nil _
  rw [bind_effects, pure_effects, hpure, forEach_used, List.mem_flatMap]
  constructor
  · rintro ⟨v, hv, hmem⟩
    exact ⟨v, mem_sortedRows.mp hv, hone v hv ▸ hmem⟩
  · rintro ⟨v, hv, hmem⟩
    exact ⟨v, mem_sortedRows.mpr hv, (hone v (mem_sortedRows.mpr hv)).symm ▸ hmem⟩

/-- What a container that is accepted is made of. -/
structure Parts (r : Renderer) (p : Provided) (files : FilesOut) (cname : String) (c : Container)
    (e : Effects) (parts : ContainerParts) : Prop where
  accepted : Errorless (envVars (scope r p) cname c.vars)
  env : parts.env = (envVars (scope r p) cname c.vars).value
  resources : parts.resources = (resources r cname c.resources).value
  mounts : MountsOf p files cname c e parts.mounts
  used : ∀ used, used ∈ e.used ↔ ∃ v ∈ c.vars.rows, used ∈ usedBy (scope r p) (r.lib.scan v.2)

theorem silent_probeOr (cname name : String) (given : Option ContainerProbe) (default : Option Value) :
    Silent (probeOr cname name given default) := by
  cases given with
  | none => exact silent_pure _
  | some given => exact silent_probe cname name given

theorem containerParts_accepted (h : Errorless (containerParts r p files port cname c)) :
    Parts r p files cname c (containerParts r p files port cname c).effects
      (containerParts r p files port cname c).value := by
  unfold containerParts at h ⊢
  obtain ⟨henv, hrest⟩ := errorless_bind.mp h
  obtain ⟨-, hrest⟩ := errorless_bind.mp hrest
  obtain ⟨-, hrest⟩ := errorless_bind.mp hrest
  obtain ⟨-, hrest⟩ := errorless_bind.mp hrest
  obtain ⟨hmounts, -⟩ := errorless_bind.mp hrest
  constructor
  · exact henv
  · rfl
  · rfl
  · apply MountsOf.mono _ within_right
    apply MountsOf.mono _ within_right
    apply MountsOf.mono _ within_right
    apply MountsOf.mono _ within_right
    exact (volumeMounts_accepted hmounts).mono within_left
  · intro used
    have hpure : ∀ l : List (String × String), l ++ Effects.none.used = l := fun l => List.append_nil l
    rw [bind_effects, append_used, bind_effects, append_used, bind_effects, append_used, bind_effects,
      append_used, bind_effects, append_used, (silent_resources r cname c.resources).used,
      (silent_probeOr cname "livenessProbe" c.livenessProbe none).used,
      (silent_probeOr cname "readinessProbe" c.readinessProbe (portProbe port)).used, used_volumeMounts,
      List.nil_append, List.nil_append, List.nil_append, List.nil_append, pure_effects, hpure]
    exact used_envVars henv

theorem container_accepted (h : Errorless (container r p files port cname c)) :
    ∃ parts, (container r p files port cname c).value = some (containerObject r cname c parts) ∧
      Parts r p files cname c (container r p files port cname c).effects parts := by
  unfold container at h ⊢
  split
  · next himage =>
    rw [if_pos himage] at h
    exact absurd h not_errorless_fail
  · next himage =>
    rw [if_neg himage] at h
    have hparts := containerParts_accepted (errorless_bind.mp h).1
    refine ⟨_, rfl, hparts.accepted, hparts.env, hparts.resources, hparts.mounts.mono within_left,
      fun used => ?_⟩
    rw [bind_effects, append_used, ← hparts.used]
    exact iff_of_eq (congrArg (used ∈ ·) (List.append_nil _))

end Containers

section Accepted
variable {r : Renderer} {p : Provided}

/-- What the renderer's containers are, where it accepts them all: each in its place, with its parts,
and nothing looked up but by their variables. -/
structure Contents (r : Renderer) (p : Provided) : Prop where
  files : FilesMounted r (filesOut r p)
  containers : ∃ parts : String × Container → ContainerParts,
    containersOut r p = (sortedRows r.workload.containers).map (fun c => containerObject r c.1 c.2 (parts c)) ∧
    ∀ c ∈ r.workload.containers.rows, Parts r p (filesOut r p) c.1 c.2
      (container r p (filesOut r p) (readinessPort r) c.1 c.2).effects (parts c) ∧
      Within (container r p (filesOut r p) (readinessPort r) c.1 c.2).effects (seen r p)
  used : ∀ used, used ∈ (seen r p).used ↔ ∃ c ∈ r.workload.containers.rows, ∃ v ∈ c.2.vars.rows,
    used ∈ usedBy (scope r p) (r.lib.scan v.2)

theorem contents (h : Errorless (containersWithFiles r p)) : Contents r p := by
  obtain ⟨hfiles, hrest⟩ := errorless_bind.mp h
  obtain ⟨hcontainers, -⟩ := errorless_bind.mp hrest
  obtain ⟨hused, hmounted⟩ := files_accepted hfiles
  have hone : ∀ c ∈ sortedRows r.workload.containers,
      Errorless (container r p (filesOut r p) (readinessPort r) c.1 c.2) := by
    intro c hc
    have hc' : Errorless (container r p (filesOut r p) (readinessPort r) c.1 c.2) :=
      errorless_forEach (a := c) hcontainers hc
    exact hc'
  have hparts : ∀ c : String × Container, ∃ parts, c ∈ sortedRows r.workload.containers →
      (container r p (filesOut r p) (readinessPort r) c.1 c.2).value =
        some (containerObject r c.1 c.2 parts) ∧ Parts r p (filesOut r p) c.1 c.2
          (container r p (filesOut r p) (readinessPort r) c.1 c.2).effects parts := by
    intro c
    by_cases hc : c ∈ sortedRows r.workload.containers
    · obtain ⟨parts, hvalue, hspec⟩ := container_accepted (hone c hc)
      exact ⟨parts, fun _ => ⟨hvalue, hspec⟩⟩
    · exact ⟨⟨[], .null, none, none, []⟩, fun hmem => absurd hmem hc⟩
  choose parts hparts using hparts
  refine ⟨hmounted, ⟨parts, ?_, fun c hc => ⟨(hparts c (mem_sortedRows.mpr hc)).2, ?_⟩⟩, fun used => ?_⟩
  · rw [containersOut, containers, forEach_value, ← List.flatMap_pure_eq_map]
    apply List.flatMap_congr
    intro c hc
    rw [(hparts c hc).1]
    rfl
  · have hloop : Within (container r p (filesOut r p) (readinessPort r) c.1 c.2).effects
        (containers r p (filesOut r p)).effects :=
      within_forEach (f := fun c => container r p (filesOut r p) (readinessPort r) c.1 c.2)
        (mem_sortedRows.mpr hc)
    apply hloop.trans
    unfold seen containersWithFiles
    apply Within.trans _ within_right
    exact within_left
  · have hseen : (seen r p).used = (containers r p (filesOut r p)).effects.used := by
      rw [seen, containersWithFiles, bind_effects, append_used, hused, List.nil_append]
      exact List.append_nil _
    rw [hseen, containers, forEach_used, List.mem_flatMap]
    constructor
    · rintro ⟨c, hc, hmem⟩
      obtain ⟨v, hv, hused⟩ := ((hparts c hc).2.used used).mp hmem
      exact ⟨c, mem_sortedRows.mp hc, v, hv, hused⟩
    · rintro ⟨c, hc, v, hv, hused⟩
      have hc := mem_sortedRows.mpr hc
      exact ⟨c, hc, ((hparts c hc).2.used used).mpr ⟨v, hv, hused⟩⟩

end Accepted
end Kubeast.Render
