import Kubeast.Render.Owned

/-! Patches and raw files do not change who owns what. -/
namespace Kubeast.Render
open Sorted

section Patches

/-- What patches leave as it is: identity, owner, the platform's labels, and the labels the objects
find each other by. -/
def identityPaths : List (List String) := [
  ["apiVersion"], ["kind"], ["metadata", "name"], ["metadata", "namespace"],
  ["metadata", "annotations", annOwner],
  ["metadata", "labels", labelName], ["metadata", "labels", labelManagedBy],
  ["metadata", "labels", labelService], ["metadata", "labels", labelEnv],
  ["spec", "selector"], ["spec", "template", "metadata", "labels"]]

def Keeps (o o' : Value) : Prop := ∀ path ∈ identityPaths, o'.find path = o.find path

/-- An overridden copy differs only at and below the path that is addressed. -/
def LocalOverride (lib : ScoreGo) : Prop :=
  ∀ o parts del v out, lib.override o parts del v = .ok out →
    ∀ path, meets path parts = false → out.find path = o.find path

variable {lib : ScoreGo} {yaml : Yaml} {o o' o'' : Value} {parts : List String} {p : Patch}
  {where_ file : String} {objects objects' objects'' : List Value}

theorem Keeps.refl (o : Value) : Keeps o o := fun _ _ => rfl

theorem Keeps.trans (h : Keeps o o') (h' : Keeps o' o'') : Keeps o o'' :=
  fun path hpath => (h' path hpath).trans (h path hpath)

theorem keeps_all_trans (h : List.Forall₂ Keeps objects objects')
    (h' : List.Forall₂ Keeps objects' objects'') : List.Forall₂ Keeps objects objects'' := by
  induction h generalizing objects'' with
  | nil => exact h'
  | cons hhead _ ih =>
    cases h' with
    | cons hhead' htail' => exact List.Forall₂.cons (hhead.trans hhead') (ih htail')

theorem keeps_all_refl (objects : List Value) : List.Forall₂ Keeps objects objects := by
  rw [List.forall₂_same]
  exact fun o _ => Keeps.refl o

/-- A path that is not protected meets none of what is kept. -/
theorem meets_identityPaths (h : protectedPath parts = none) :
    ∀ path ∈ identityPaths, meets path parts = false := by
  intro path hpath
  have hsubset : ∀ path ∈ identityPaths, path ∈ protectedPaths := by decide
  rw [protectedPath, List.find?_eq_none] at h
  simpa using h path (hsubset path hpath)

theorem keeps_patchObject (hlocal : LocalOverride lib) (hparts : protectedPath parts = none) :
    Keeps o (patchObject lib where_ p parts o).1 := by
  unfold patchObject
  dsimp only
  split
  · exact Keeps.refl o
  · split
    · next out hout =>
      exact fun path hpath => hlocal _ _ _ _ _ hout path (meets_identityPaths hparts path hpath)
    · exact Keeps.refl o

/-- One operation. -/
theorem keeps_applyPatch (hlocal : LocalOverride lib) (where_ : String) (p : Patch)
    (objects : List Value) : List.Forall₂ Keeps objects (applyPatch lib where_ p objects).1 := by
  unfold applyPatch
  split
  · exact keeps_all_refl objects
  · next hproblem =>
    have hparts : protectedPath (lib.dotPath p.path) = none := by
      unfold Patch.problem at hproblem
      split at hproblem
      · cases hproblem
      · split at hproblem
        · cases hproblem
        · split at hproblem
          · cases hproblem
          · split at hproblem
            · cases hproblem
            · exact Option.map_eq_none_iff.mp hproblem
    dsimp only
    rw [List.map_map, List.forall₂_map_right_iff, List.forall₂_same]
    intro o _
    dsimp only [Function.comp_apply]
    split
    · exact keeps_patchObject hlocal hparts
    · exact Keeps.refl o

/-- The operations of a file, one after the other. -/
theorem keeps_applyOps (hlocal : LocalOverride lib) (file : String) (i : ℕ) (ops : List Patch)
    (objects : List Value) : List.Forall₂ Keeps objects (applyOps lib file i ops objects).1 := by
  induction ops generalizing i objects with
  | nil => exact keeps_all_refl objects
  | cons p ops ih => exact keeps_all_trans (keeps_applyPatch hlocal _ p objects) (ih (i + 1) _)

/-- The files, one after the other. -/
theorem keeps_applyPatches (hlocal : LocalOverride lib) (yaml : Yaml) (files : List File)
    (objects : List Value) : List.Forall₂ Keeps objects (applyPatches lib yaml files objects).1 := by
  induction files generalizing objects with
  | nil => exact keeps_all_refl objects
  | cons f files ih =>
    rw [applyPatches]
    cases yaml.patches f.data with
    | ok ops => exact keeps_all_trans (keeps_applyOps hlocal f.name 0 ops objects) (ih _)
    | error e => exact ih objects

end Patches

section Raw
variable {r : Renderer} {kind name where_ : String} {o o' : Value} {a : Accepted}
  {doc md : List (String × Value)} {rendered : List Value}

theorem find_singleton (o : Value) (k : String) : o.find [k] = o.get k := by
  rw [Value.find]
  cases o.get k <;> rfl

theorem Tagged.keeps (h : Tagged r kind name o) (hkeeps : Keeps o o') : Tagged r kind name o' where
  kind_eq := by
    have hkind := hkeeps ["kind"] (by decide)
    rw [find_singleton, find_singleton] at hkind
    exact hkind.trans h.kind_eq
  name_eq := (hkeeps _ (by decide)).trans h.name_eq
  owner := (hkeeps _ (by decide)).trans h.owner
  labels l hl := by
    apply (hkeeps _ _).trans (h.labels l hl)
    simp only [Renderer.labels, List.mem_cons, List.not_mem_nil, or_false] at hl
    rcases hl with rfl | rfl | rfl | rfl <;> simp [identityPaths]

/-- An object of the workload: tagged, in its namespace, and none of the kinds that are refused. -/
structure Owned (r : Renderer) (ns : Option Value) (o : Value) : Prop where
  tagged : ∃ kind name, Tagged r kind name o ∧ kind ≠ "Secret" ∧ hasSuffix kind "List" = false
  ns_eq : o.find ["metadata", "namespace"] = ns

theorem text_eq {v : Option Value} {s : String} (h : Value.text v = s) (hs : s ≠ "") :
    v = some (.str s) := by
  cases v with
  | none => exact absurd h.symm hs
  | some v =>
    cases v with
    | str t => rw [← h]; rfl
    | null | bool _ | num _ | list _ | map _ => exact absurd h.symm hs

theorem setLabel_eq_ok {own next : List (String × Value)} {l : String × Value}
    (h : setLabel own l = .ok next) : next = Value.put own l.1 l.2 := by
  unfold setLabel at h
  split at h
  · split at h
    · cases h
    · exact (Except.ok.inj h).symm
  · exact (Except.ok.inj h).symm

/-- Labels that have been set one after the other. -/
theorem get_setLabels {own labels ls : List (String × Value)} (hnodup : (ls.map Prod.fst).Nodup)
    (h : ls.foldlM setLabel own = .ok labels) :
    (∀ l ∈ ls, (Value.map labels).get l.1 = some l.2) ∧
      ∀ k, k ∉ ls.map Prod.fst → (Value.map labels).get k = (Value.map own).get k := by
  induction ls generalizing own with
  | nil =>
    obtain rfl := Except.ok.inj h
    exact ⟨by simp, fun k _ => rfl⟩
  | cons l ls ih =>
    rw [List.map_cons, List.nodup_cons] at hnodup
    obtain ⟨next, hnext, h⟩ := Transition.bind_eq_ok.mp h
    obtain ⟨hset, hrest⟩ := ih hnodup.2 h
    rw [setLabel_eq_ok hnext] at hrest
    constructor
    · intro l' hl'
      rcases List.mem_cons.mp hl' with rfl | hl'
      · rw [hrest _ hnodup.1, Value.get_put_self]
      · exact hset l' hl'
    · intro k hk
      rw [List.map_cons, List.mem_cons, not_or] at hk
      rw [hrest k hk.2, Value.get_put_ne (Ne.symm hk.1)]

theorem get_platformLabels {own labels : List (String × Value)} (h : platformLabels r own = .ok labels) :
    ∀ l ∈ r.labels, (Value.map labels).get l.1 = some l.2 := by
  have hkeys : r.labels.map Prod.fst = [labelName, labelManagedBy, labelService, labelEnv] := rfl
  have hnodup : (r.labels.map Prod.fst).Nodup := by
    rw [hkeys]
    decide
  exact (get_setLabels hnodup h).1

/-- A document with the platform's metadata. -/
theorem tagged_placed {labels ann md' : List (String × Value)}
    (hkind : (Value.map doc).get "kind" = some (.str kind))
    (hname : (Value.map md).get "name" = some (.str name))
    (hlabels : ∀ l ∈ r.labels, (Value.map labels).get l.1 = some l.2)
    (hmd : ∀ k ≠ "namespace", (Value.map md').get k = (Value.map (Value.put (Value.put md "labels"
      (.map labels)) "annotations" (.map (Value.put ann annOwner (.str (r.owner kind name)))))).get k) :
    Tagged r kind name (.map (Value.put doc "metadata" (.map md'))) := by
  have hmeta : (Value.map (Value.put doc "metadata" (.map md'))).get "metadata" = some (.map md') :=
    Value.get_put_self
  constructor
  · rw [Value.get_put_ne (by decide), hkind]
  · rw [find_cons hmeta, find_singleton, hmd _ (by decide), Value.get_put_ne (by decide),
      Value.get_put_ne (by decide), hname]
  · rw [find_cons hmeta, find_cons ((hmd _ (by decide)).trans Value.get_put_self), find_singleton,
      Value.get_put_self]
  · intro l hl
    have hget := hmd "labels" (by decide)
    rw [Value.get_put_ne (by decide), Value.get_put_self] at hget
    rw [find_cons hmeta, find_cons hget, find_singleton, hlabels l hl]

/-- The accepted objects are the workload's, and no two objects have one kind and name. -/
structure Placed (r : Renderer) (rendered : List Value) (a : Accepted) : Prop where
  objects : ∀ o ∈ a.objects, Owned r (some (.str r.ns)) o
  clusterScoped : ∀ o ∈ a.clusterScoped, Owned r none o
  seen : ∀ o ∈ rendered ++ (a.objects ++ a.clusterScoped), seenKey (kindOf o) (objName o) ∈ a.seen
  nodup : ((rendered ++ (a.objects ++ a.clusterScoped)).map ident).Nodup

theorem Placed.fail (h : Placed r rendered a) (format : String) (args : List Value) :
    Placed r rendered (a.fail format args) := ⟨h.objects, h.clusterScoped, h.seen, h.nodup⟩

/-- What placing a document does: it fails, or the document becomes an object of the workload. -/
theorem placeRaw_cases (hkind : (Value.map doc).get "kind" = some (.str kind))
    (hname : (Value.map md).get "name" = some (.str name)) :
    (∃ format args, placeRaw r where_ kind name doc md a = a.fail format args) ∨
    ∃ o, Tagged r kind name o ∧
      ((o.find ["metadata", "namespace"] = none ∧ (placeRaw r where_ kind name doc md a).seen = a.seen ∧
        (placeRaw r where_ kind name doc md a).objects = a.objects ∧
        (placeRaw r where_ kind name doc md a).clusterScoped = a.clusterScoped ++ [o]) ∨
      (o.find ["metadata", "namespace"] = some (.str r.ns) ∧
        (placeRaw r where_ kind name doc md a).seen = a.seen ∧
        (placeRaw r where_ kind name doc md a).objects = a.objects ++ [o] ∧
        (placeRaw r where_ kind name doc md a).clusterScoped = a.clusterScoped)) := by
  unfold placeRaw
  split
  · exact Or.inl ⟨_, _, rfl⟩
  · next labels hlabels =>
    have hlabels := get_platformLabels hlabels
    dsimp only
    split
    · exact Or.inl ⟨_, _, rfl⟩
    · right
      split
      · refine ⟨_, tagged_placed hkind hname hlabels fun k hk => Value.get_delete_ne (Ne.symm hk),
          Or.inl ⟨?_, rfl, rfl, rfl⟩⟩
        rw [find_cons Value.get_put_self, find_singleton, Value.get_delete_self]
      · refine ⟨_, tagged_placed hkind hname hlabels fun k hk => Value.get_put_ne (Ne.symm hk),
          Or.inr ⟨?_, rfl, rfl, rfl⟩⟩
        rw [find_cons Value.get_put_self, find_singleton, Value.get_put_self]

/-- One more object, of a kind and name that were not taken. -/
theorem Placed.add {a' : Accepted} (h : Placed r rendered a) (htag : Tagged r kind name o)
    (hkey : seenKey kind name ∉ a.seen) (hseen : a'.seen = seenKey kind name :: a.seen)
    (hperm : (rendered ++ (a'.objects ++ a'.clusterScoped)).Perm
      (o :: (rendered ++ (a.objects ++ a.clusterScoped))))
    (hobjects : ∀ o ∈ a'.objects, Owned r (some (.str r.ns)) o)
    (hcluster : ∀ o ∈ a'.clusterScoped, Owned r none o) : Placed r rendered a' := by
  have hkind : kindOf o = kind := congrArg Prod.fst htag.ident
  have hname : objName o = name := congrArg Prod.snd htag.ident
  refine ⟨hobjects, hcluster, ?_, ?_⟩
  · intro o' ho'
    rw [hseen]
    rcases List.mem_cons.mp (hperm.mem_iff.mp ho') with rfl | ho'
    · rw [hkind, hname]
      exact List.mem_cons_self ..
    · exact List.mem_cons_of_mem _ (h.seen o' ho')
  · rw [(hperm.map ident).nodup_iff, List.map_cons, List.nodup_cons]
    refine ⟨fun hmem => ?_, h.nodup⟩
    obtain ⟨o', ho', heq⟩ := List.mem_map.mp hmem
    have htaken := h.seen o' ho'
    rw [htag.ident] at heq
    have hkind' : kindOf o' = kind := congrArg Prod.fst heq
    have hname' : objName o' = name := congrArg Prod.snd heq
    rw [hkind', hname'] at htaken
    exact hkey htaken

/-- One document. -/
theorem placed_addRawObject (h : Placed r rendered a) (where_ : String)
    (doc : List (String × Value)) : Placed r rendered (addRawObject r where_ doc a) := by
  unfold addRawObject
  dsimp only
  generalize hkind : Value.text ((Value.map doc).get "kind") = kind
  generalize hname : Value.text ((Value.map (Value.members ((Value.map doc).get "metadata"))).get "name") =
    name
  split
  · exact h.fail ..
  · next hgiven =>
    rw [not_or, not_or] at hgiven
    split
    · exact h.fail ..
    · next hsecret =>
      split
      · exact h.fail ..
      · next hlist =>
        split
        · exact h.fail ..
        · split
          · exact h.fail ..
          · next hkey =>
            have hrefused : kind ≠ "Secret" ∧ hasSuffix kind "List" = false :=
              ⟨hsecret, by simpa using hlist⟩
            have hseen : Placed r rendered { a with seen := seenKey kind name :: a.seen } :=
              ⟨h.objects, h.clusterScoped, fun o ho => List.mem_cons_of_mem _ (h.seen o ho), h.nodup⟩
            obtain ⟨format, args, hfail⟩ | ⟨o, htag, ⟨hns, hs, ho, hc⟩ | ⟨hns, hs, ho, hc⟩⟩ :=
              placeRaw_cases (a := { a with seen := seenKey kind name :: a.seen }) (r := r)
                (text_eq hkind hgiven.2.1) (text_eq hname hgiven.2.2)
            · rw [hfail]
              exact hseen.fail format args
            · apply h.add htag hkey hs
              · have hassoc : rendered ++ (a.objects ++ (a.clusterScoped ++ [o])) =
                    (rendered ++ (a.objects ++ a.clusterScoped)) ++ [o] := by
                  simp only [List.append_assoc]
                rw [ho, hc]
                exact (List.Perm.of_eq hassoc).trans (List.perm_append_singleton o _)
              · rw [ho]
                exact h.objects
              · rw [hc]
                intro o' ho'
                rcases List.mem_append.mp ho' with ho' | ho'
                · exact h.clusterScoped o' ho'
                · rw [List.mem_singleton.mp ho']
                  exact ⟨⟨kind, name, htag, hrefused⟩, hns⟩
            · apply h.add htag hkey hs
              · rw [ho, hc, List.append_assoc, List.singleton_append]
                exact (List.perm_middle.append_left rendered).trans List.perm_middle
              · rw [ho]
                intro o' ho'
                rcases List.mem_append.mp ho' with ho' | ho'
                · exact h.objects o' ho'
                · rw [List.mem_singleton.mp ho']
                  exact ⟨⟨kind, name, htag, hrefused⟩, hns⟩
              · rw [hc]
                exact h.clusterScoped

/-- The documents of a file. -/
theorem placed_addDocuments (file : String) (n : ℕ) (docs : List (Option (List (String × Value))))
    (h : Placed r rendered a) : Placed r rendered (addDocuments r file n docs a) := by
  induction docs generalizing n a with
  | nil => exact h
  | cons doc docs ih =>
    cases doc with
    | none => exact ih (n + 1) h
    | some doc => exact ih (n + 1) (placed_addRawObject h _ doc)

/-- The raw files. -/
theorem placed_addRaw (yaml : Yaml) (files : List File) (h : (rendered.map ident).Nodup) :
    Placed r rendered (addRaw r yaml files rendered) := by
  have hfile : ∀ (f : File) {a : Accepted}, Placed r rendered a →
      Placed r rendered (addFile r yaml f a) := by
    intro f a ha
    have hdocs := placed_addDocuments f.name 0 (yaml.documents f.data).1 ha
    unfold addFile
    dsimp only
    split
    · exact hdocs
    · exact ⟨hdocs.objects, hdocs.clusterScoped, hdocs.seen, hdocs.nodup⟩
  have hstart : Placed r rendered
      ⟨rendered.map fun o => seenKey (kindOf o) (objName o), [], [], [], []⟩ := by
    refine ⟨by simp, by simp, ?_, ?_⟩
    · intro o ho
      rw [List.append_nil, List.append_nil] at ho
      exact List.mem_map_of_mem ho
    · rwa [List.append_nil, List.append_nil]
  unfold addRaw
  generalize (⟨rendered.map fun o => seenKey (kindOf o) (objName o), [], [], [], []⟩ : Accepted) = a at hstart
  induction files generalizing a with
  | nil => exact hstart
  | cons f files ih => exact ih _ (hfile f hstart)

end Raw

section Render
variable {lib : ScoreGo} {yaml : Yaml} {i : Input} {res : Result}

/-- What a successful run has gone through. -/
theorem render_eq_ok (h : render lib yaml i = .ok res) : ∃ ns built,
    i.env.namespaceFor i.workload.name = .ok ns ∧ rendered (i.renderer lib ns) = .ok built ∧
    res.objects = sortObjects ((applyPatches lib yaml i.patches built.objects).1 ++
      (addRaw (i.renderer lib ns) yaml i.raw (applyPatches lib yaml i.patches built.objects).1).objects) ∧
    res.clusterScoped = sortObjects
      (addRaw (i.renderer lib ns) yaml i.raw (applyPatches lib yaml i.patches built.objects).1).clusterScoped := by
  unfold render at h
  split at h
  · cases h
  · next ns hns =>
    dsimp only at h
    split at h
    · cases h
    · next built hbuilt =>
      split at h
      · cases h
      · obtain rfl := Except.ok.inj h
        exact ⟨ns, built, hns, hbuilt, rfl, rfl⟩

/-- Objects that are kept have the kinds and names they had. -/
theorem idents_keep {r : Renderer} {objects objects' : List Value}
    (h : List.Forall₂ Keeps objects objects') (htag : ∀ o ∈ objects, ∃ kind name, Tagged r kind name o) :
    objects'.map ident = objects.map ident ∧ ∀ o' ∈ objects', ∃ o ∈ objects, Keeps o o' := by
  induction h with
  | nil => exact ⟨rfl, by simp⟩
  | @cons o o' objects objects' hkeeps _ ih =>
    obtain ⟨kind, name, hone⟩ := htag o (List.mem_cons_self ..)
    obtain ⟨hidents, hmem⟩ := ih fun o ho => htag o (List.mem_cons_of_mem _ ho)
    constructor
    · rw [List.map_cons, List.map_cons, hidents, hone.ident, (hone.keeps hkeeps).ident]
    · intro u hu
      rcases List.mem_cons.mp hu with rfl | hu
      · exact ⟨o, List.mem_cons_self .., hkeeps⟩
      · obtain ⟨v, hv, huv⟩ := hmem u hu
        exact ⟨v, List.mem_cons_of_mem _ hv, huv⟩

/-- Patches and raw files cannot change who owns what: patches keep the identity of every object they
are given, and every object of the result is the workload's, no two of them having one kind and
name. -/
theorem render_owned (hlocal : LocalOverride lib) :
    (∀ files objects, List.Forall₂ Keeps objects (applyPatches lib yaml files objects).1) ∧
    ∀ i res, render lib yaml i = .ok res → ∃ ns, i.env.namespaceFor i.workload.name = .ok ns ∧
      (∀ o ∈ res.objects, Owned (i.renderer lib ns) (some (.str ns)) o) ∧
      (∀ o ∈ res.clusterScoped, Owned (i.renderer lib ns) none o) ∧
      ((res.objects ++ res.clusterScoped).map ident).Nodup := by
  refine ⟨keeps_applyPatches hlocal yaml, fun i res h => ?_⟩
  obtain ⟨ns, built, hns, hbuilt, hobjects, hcluster⟩ := render_eq_ok h
  have hnamed := named_rendered hbuilt
  have hkeeps := keeps_applyPatches hlocal yaml i.patches built.objects
  generalize (applyPatches lib yaml i.patches built.objects).1 = patched at *
  have hmade {o : Value} (ho : o ∈ built.objects) : ∃ kind ∈ madeKinds, ∃ name,
      Made (i.renderer lib ns) kind name o := by
    obtain ⟨kind, hkind, name, hmade, -⟩ := hnamed.made o ho
    exact ⟨kind, hkind, name, hmade⟩
  have htagged : ∀ o ∈ built.objects, ∃ kind name, Tagged (i.renderer lib ns) kind name o := by
    intro o ho
    obtain ⟨kind, -, name, hone⟩ := hmade ho
    exact ⟨kind, name, hone.tagged.1⟩
  obtain ⟨hidents, horigin⟩ := idents_keep hkeeps htagged
  have howned : ∀ o ∈ patched, Owned (i.renderer lib ns) (some (.str ns)) o := by
    intro o' ho'
    obtain ⟨o, ho, hoo'⟩ := horigin o' ho'
    obtain ⟨kind, hkind, name, hone⟩ := hmade ho
    have hrefused : ∀ kind ∈ madeKinds, kind ≠ "Secret" ∧ hasSuffix kind "List" = false := by decide
    exact ⟨⟨kind, name, hone.tagged.1.keeps hoo', hrefused kind hkind⟩,
      (hoo' _ (by decide)).trans hone.tagged.2⟩
  have hplaced := placed_addRaw (r := i.renderer lib ns) yaml i.raw (hidents ▸ hnamed.nodup)
  refine ⟨ns, hns, ?_, ?_, ?_⟩
  · intro o ho
    rw [hobjects] at ho
    rcases List.mem_append.mp ((perm_sortBy _ _).mem_iff.mp ho) with ho | ho
    · exact howned o ho
    · exact hplaced.objects o ho
  · intro o ho
    rw [hcluster] at ho
    exact hplaced.clusterScoped o ((perm_sortBy _ _).mem_iff.mp ho)
  · have hperm (l l' : List Value) : (sortObjects l ++ sortObjects l').Perm (l ++ l') :=
      (perm_sortBy sortKey l).append (perm_sortBy sortKey l')
    rw [hobjects, hcluster, ((hperm _ _).map ident).nodup_iff, List.append_assoc]
    exact hplaced.nodup

end Render

section Runs

/-- Overriding along maps; a map that is missing on the way is made. -/
def overrideMaps (del : Bool) (v : Value) : List String → Value → Value
  | [], _ => v
  | [k], o => .map (if del then Value.delete (Value.members o) k else Value.put (Value.members o) k v)
  | k :: rest, o =>
    .map (Value.put (Value.members o) k (overrideMaps del v rest ((o.get k).getD (.map []))))

theorem get_members (o : Value) (k : String) : (Value.map (Value.members o)).get k = o.get k := by
  cases o <;> rfl

theorem find_overrideMaps (del : Bool) (v : Value) (parts path : List String) (o : Value)
    (h : meets path parts = false) : (overrideMaps del v parts o).find path = o.find path := by
  induction parts generalizing o path with
  | nil => cases path <;> cases h
  | cons k rest ih =>
    cases path with
    | nil => cases h
    | cons l path =>
      have hother (ms : List (String × Value)) (hget : (Value.map ms).get l = o.get l) :
          (Value.map ms).find (l :: path) = o.find (l :: path) := by
        rw [Value.find, Value.find, hget]
      by_cases hkl : k = l
      · subst hkl
        cases rest with
        | nil => cases path <;> simp [meets] at h
        | cons k' rest =>
          have hrest : meets path (k' :: rest) = false := by simpa [meets] using h
          have hset : (overrideMaps del v (k :: k' :: rest) o).get k =
              some (overrideMaps del v (k' :: rest) ((o.get k).getD (.map []))) := Value.get_put_self
          rw [find_cons hset, ih path _ hrest, Value.find]
          cases o.get k with
          | some w => rfl
          | none =>
            cases path with
            | nil => cases hrest
            | cons l path => rfl
      · cases rest with
        | nil =>
          apply hother
          cases del with
          | true => exact (Value.get_delete_ne hkl).trans (get_members o l)
          | false => exact (Value.get_put_ne hkl).trans (get_members o l)
        | cons k' rest => exact hother _ ((Value.get_put_ne hkl).trans (get_members o l))

/-- The library, with paths whose keys hold no dot. -/
def mapsLib : ScoreGo :=
  { secretScope.lib with
    dotPath := fun s => (s.toList.splitOn '.').map String.ofList
    override := fun o parts del v => .ok (overrideMaps del v parts o) }

theorem local_mapsLib : LocalOverride mapsLib := by
  intro o parts del v out h path hpath
  obtain rfl := Except.ok.inj h
  exact find_overrideMaps del v parts path o hpath

def smallEnv : EnvFile where
  name := "alpha"
  namespace_ := ""
  replicas := 0
  requests := ⟨"", ""⟩
  limits := ⟨"", ""⟩
  hostUsers := false
  spread := some []
  maxSurge := ""
  tmpSize := ""
  readinessFromPort := none
  gateway := none
  domain := ""
  secretStore := none
  serviceAccountClass := ""
  profiles := Table.empty
  defaultProfile := ""
  capabilities := ⟨false, false, false⟩
  modes := Table.empty

def plainExt : Ext where
  replicas := none
  autoscale := none
  pdb := .auto
  readOnlyRoot := true
  readOnlyRootReason := ""
  runAsUser := none
  hostUsers := none
  spread := none
  scrape := none
  profile := ""
  policyExceptions := []
  policyExceptionReason := ""

def smallContainer : Container where
  image := "registry.example/web:1"
  command := []
  args := []
  vars := Table.empty
  files := Table.empty
  volumes := Table.empty
  resources := none
  livenessProbe := none
  readinessProbe := none

def smallInput : Input where
  workload := {
    metadata := .map [("name", .str "web")]
    containers := ⟨[("main", smallContainer)], by decide⟩
    ports := Table.empty
    resources := Table.empty
    labels := by simp [Table.empty] }
  ext := plainExt
  notes := []
  env := smallEnv.filled
  peers := Table.empty
  patches := [⟨"scale.yaml", [1]⟩]
  raw := [⟨"role.yaml", [2]⟩]

/-- A file that scales the deployment, and one with a role of the cluster. -/
def smallYaml : Yaml where
  patches _ := .ok [⟨"Deployment", "", "set", "spec.replicas", some (.num 3)⟩]
  documents _ := ([some [("apiVersion", .str "rbac.authorization.k8s.io/v1"),
    ("kind", .str "ClusterRole"), ("metadata", .map [("name", .str "reader")])]], none)

theorem render_owned_small : ∃ res, render mapsLib smallYaml smallInput = .ok res ∧
    ∃ ns, smallInput.env.namespaceFor smallInput.workload.name = .ok ns ∧
      (∀ o ∈ res.objects, Owned (smallInput.renderer mapsLib ns) (some (.str ns)) o) ∧
      (∀ o ∈ res.clusterScoped, Owned (smallInput.renderer mapsLib ns) none o) ∧
      ((res.objects ++ res.clusterScoped).map ident).Nodup := by
  have hok : (render mapsLib smallYaml smallInput).isOk = true := by decide
  cases h : render mapsLib smallYaml smallInput with
  | error e => rw [h] at hok; cases hok
  | ok res => exact ⟨res, rfl, (render_owned local_mapsLib).2 smallInput res h⟩

end Runs
end Kubeast.Render
