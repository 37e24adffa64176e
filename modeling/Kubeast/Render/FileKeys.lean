import Kubeast.Render.Links
import Mathlib.Data.List.Infix
import Mathlib.Data.Nat.Digits.Lemmas

/-! The keys of the containers' files in their ConfigMap: a container, a number and a name with
dashes between. The keys are all different, and each file is mounted with its own content, where no
container is named like a file of another. -/
namespace Kubeast.Render
open Sorted

section Keys
variable {r : Renderer} {f g : String × String × ℕ × ContainerFile}

/-- The file's place in the ConfigMap. -/
def fileKey (f : String × String × ℕ × ContainerFile) : String :=
  f.1 ++ "-" ++ toString f.2.2.1 ++ "-" ++ keyPart (Text.base f.2.1)

/-- The second container is named like the first with a file's number behind, and the file's name
goes on with what else is in that name and a file of the second. -/
def Meets (f g : String × String × ℕ × ContainerFile) : Prop :=
  ∃ t, g.1 = f.1 ++ "-" ++ toString f.2.2.1 ++ t ∧ "-" ++ keyPart (Text.base f.2.1) =
    t ++ "-" ++ toString g.2.2.1 ++ "-" ++ keyPart (Text.base g.2.1)

/-- No container is named like a file of another. -/
def Apart (r : Renderer) : Prop := ∀ f ∈ fileRows r, ∀ g ∈ fileRows r, ¬ Meets f g

/-- What goes on with a dash after a part without dashes holds that part. -/
theorem dashed_longer {d b s rest : List Char} (hd : '-' ∉ d) (hs : s ≠ [])
    (h : '-' :: (d ++ '-' :: b) = s ++ '-' :: rest) :
    ∃ t, s = '-' :: (d ++ t) ∧ '-' :: b = t ++ '-' :: rest := by
  obtain ⟨x, s, rfl⟩ := List.exists_cons_of_ne_nil hs
  rw [List.cons_append] at h
  obtain ⟨rfl, hrest⟩ := List.cons.inj h
  rcases List.append_eq_append_iff.mp hrest with ⟨t, rfl, ht⟩ | ⟨t, rfl, ht⟩
  · exact ⟨t, rfl, ht⟩
  · cases t with
    | nil => exact ⟨[], by rw [List.append_nil, List.append_nil], ht.symm⟩
    | cons y t =>
      obtain ⟨rfl, -⟩ := List.cons.inj ht
      exact absurd (by simp) hd

/-- Texts with a part between dashes that holds none. -/
theorem dashed_eq {c d b c' d' b' : List Char} (hd : '-' ∉ d) (hd' : '-' ∉ d')
    (h : c ++ ('-' :: (d ++ '-' :: b)) = c' ++ ('-' :: (d' ++ '-' :: b'))) :
    (c = c' ∧ d = d') ∨
      (∃ t, c' = c ++ ('-' :: (d ++ t)) ∧ '-' :: b = t ++ ('-' :: (d' ++ '-' :: b'))) ∨
      ∃ t, c = c' ++ ('-' :: (d' ++ t)) ∧ '-' :: b' = t ++ ('-' :: (d ++ '-' :: b)) := by
  have hsame (h : '-' :: (d ++ '-' :: b) = '-' :: (d' ++ '-' :: b')) : d = d' :=
    (Text.append_cons_inj hd hd' (List.cons.inj h).2).1
  rcases List.append_eq_append_iff.mp h with ⟨s, rfl, hs⟩ | ⟨s, rfl, hs⟩
  · by_cases hnil : s = []
    · subst hnil
      exact Or.inl ⟨(List.append_nil c).symm, hsame hs⟩
    · obtain ⟨t, rfl, ht⟩ := dashed_longer hd hnil hs
      exact Or.inr (Or.inl ⟨t, rfl, ht⟩)
  · by_cases hnil : s = []
    · subst hnil
      exact Or.inl ⟨List.append_nil c', hsame hs.symm⟩
    · obtain ⟨t, rfl, ht⟩ := dashed_longer hd' hnil hs
      exact Or.inr (Or.inr ⟨t, rfl, ht⟩)

theorem fileKey_toList (f : String × String × ℕ × ContainerFile) : (fileKey f).toList =
    f.1.toList ++ ('-' :: ((toString f.2.2.1).toList ++ '-' :: (keyPart (Text.base f.2.1)).toList)) := by
  simp [fileKey, String.toList_append]

theorem meets_iff_keys : Meets f g ↔ ∃ t, g.1.toList = f.1.toList ++ ('-' :: ((toString f.2.2.1).toList ++ t)) ∧
    '-' :: (keyPart (Text.base f.2.1)).toList =
      t ++ ('-' :: ((toString g.2.2.1).toList ++ '-' :: (keyPart (Text.base g.2.1)).toList)) := by
  constructor
  · rintro ⟨t, hname, hrest⟩
    refine ⟨t.toList, ?_, ?_⟩
    · simpa using congrArg String.toList hname
    · simpa using congrArg String.toList hrest
  · rintro ⟨t, hname, hrest⟩
    refine ⟨String.ofList t, String.toList_inj.mp ?_, String.toList_inj.mp ?_⟩
    · simpa using hname
    · simpa using hrest

theorem fileKey_cases (h : fileKey f = fileKey g) :
    (f.1 = g.1 ∧ f.2.2.1 = g.2.2.1) ∨ Meets f g ∨ Meets g f := by
  have hchars := congrArg String.toList h
  rw [fileKey_toList, fileKey_toList] at hchars
  rw [meets_iff_keys, meets_iff_keys]
  refine (dashed_eq (Text.notMem_toString rfl _) (Text.notMem_toString rfl _) hchars).imp_left ?_
  exact fun hsame => ⟨String.toList_inj.mp hsame.1, Text.toString_inj hsame.2⟩

theorem fileKey_of_meets (h : Meets f g) : fileKey f = fileKey g := by
  obtain ⟨t, hname, hrest⟩ := h
  have hkey : fileKey f = f.1 ++ "-" ++ toString f.2.2.1 ++ ("-" ++ keyPart (Text.base f.2.1)) := by
    simp only [fileKey, String.append_assoc]
  rw [hkey, hrest, fileKey, hname]
  simp only [String.append_assoc]

theorem ne_of_meets (h : Meets f g) : f ≠ g := by
  rintro rfl
  obtain ⟨t, hname, -⟩ := h
  have hlength := congrArg (fun s => s.toList.length) hname
  simp only [String.toList_append, List.length_append] at hlength
  have : "-".toList.length = 1 := rfl
  omega

theorem mem_filesOf {cname : String} {c : Container} : f ∈ filesOf cname c ↔
    f.1 = cname ∧ (sortedRows c.files)[f.2.2.1]? = some (f.2.1, f.2.2.2) := by
  obtain ⟨name, target, i, file⟩ := f
  rw [filesOf, List.mem_map]
  constructor
  · rintro ⟨⟨⟨target, file⟩, i⟩, hmem, ⟨⟩⟩
    exact ⟨rfl, List.mem_zipIdx_iff_getElem?.mp hmem⟩
  · rintro ⟨rfl, hmem⟩
    exact ⟨((target, file), i), List.mem_zipIdx_iff_getElem?.mpr hmem, rfl⟩

theorem mem_fileRows : f ∈ fileRows r ↔
    ∃ c, (f.1, c) ∈ r.workload.containers.rows ∧
      (sortedRows c.files)[f.2.2.1]? = some (f.2.1, f.2.2.2) := by
  rw [fileRows, List.mem_flatMap]
  constructor
  · rintro ⟨⟨cname, c⟩, hc, hmem⟩
    obtain ⟨rfl, hfile⟩ := mem_filesOf.mp hmem
    exact ⟨c, mem_sortedRows.mp hc, hfile⟩
  · rintro ⟨c, hc, hfile⟩
    exact ⟨(f.1, c), mem_sortedRows.mpr hc, mem_filesOf.mpr ⟨rfl, hfile⟩⟩

/-- A file is known by its container and its number. -/
theorem fileRows_inj (hf : f ∈ fileRows r) (hg : g ∈ fileRows r) (hname : f.1 = g.1)
    (hnumber : f.2.2.1 = g.2.2.1) : f = g := by
  obtain ⟨c, hc, hfile⟩ := mem_fileRows.mp hf
  obtain ⟨c', hc', hfile'⟩ := mem_fileRows.mp hg
  have hcontainer := Table.eq_of_key_eq hc hc' hname
  obtain rfl : c = c' := congrArg Prod.snd hcontainer
  rw [← hnumber, hfile] at hfile'
  obtain ⟨htarget, hcontent⟩ := Prod.mk.inj (Option.some.inj hfile')
  exact Prod.ext hname (Prod.ext htarget (Prod.ext hnumber hcontent))

theorem nodup_fileRows (r : Renderer) : (fileRows r).Nodup := by
  rw [fileRows, List.nodup_flatMap]
  constructor
  · intro c _
    have hnumbers : ((filesOf c.1 c.2).map fun f => f.2.2.1).Nodup := by
      rw [filesOf, List.map_map]
      have hrange : ((sortedRows c.2.files).zipIdx.map Prod.snd).Nodup := by
        rw [List.zipIdx_map_snd]
        exact List.nodup_range'
      exact hrange
    exact hnumbers.of_map _
  · refine (List.pairwise_map.mp (nodup_sortedRows r.workload.containers)).imp ?_
    intro c c' hne f hf hf'
    exact hne ((mem_filesOf.mp hf).1.symm.trans (mem_filesOf.mp hf').1)

/-- The keys are all different exactly where no container is named like a file of another. -/
theorem nodup_fileKeys_iff (r : Renderer) : ((fileRows r).map fileKey).Nodup ↔ Apart r := by
  rw [List.nodup_map_iff_inj_on (nodup_fileRows r)]
  constructor
  · exact fun h f hf g hg hmeets => ne_of_meets hmeets (h f hf g hg (fileKey_of_meets hmeets))
  · intro h f hf g hg heq
    rcases fileKey_cases heq with ⟨hname, hnumber⟩ | hmeets | hmeets
    · exact fileRows_inj hf hg hname hnumber
    · exact absurd hmeets (h f hf g hg)
    · exact absurd hmeets (h g hg f hf)

end Keys

section Maps
variable {X : Type} {l : List X} {f : X → String} {g : X → Option String} {m : Dict String String}
  {x : X} {v : String}

/-- A map filled from the entries that have a value. -/
def fillSome (f : X → String) (g : X → Option String) (m : Dict String String) (l : List X) :
    Dict String String :=
  l.foldl (fun m x => match g x with
    | some v => m.set (f x) v
    | none => m) m

theorem get_fillSome_of_notMem {k : String} (h : ∀ x ∈ l, f x ≠ k) : (fillSome f g m l).get k = m.get k := by
  induction l generalizing m with
  | nil => rfl
  | cons x l ih =>
    have hrest := ih (m := match g x with
      | some v => m.set (f x) v
      | none => m) fun y hy => h y (List.mem_cons_of_mem x hy)
    refine hrest.trans ?_
    cases g x with
    | none => rfl
    | some v => exact Dict.get_set_ne (h x List.mem_cons_self)

/-- An entry under a key of its own holds its value. -/
theorem get_fillSome (hkeys : (l.map f).Nodup) (hx : x ∈ l) (hv : g x = some v) :
    (fillSome f g m l).get (f x) = some (f x, v) := by
  induction l generalizing m with
  | nil => cases hx
  | cons y l ih =>
    obtain ⟨hy, hl⟩ := List.nodup_cons.mp hkeys
    rcases List.mem_cons.mp hx with rfl | hx
    · have hrest := get_fillSome_of_notMem (f := f) (g := g) (k := f x) (m := m.set (f x) v)
        fun z hz heq => hy (List.mem_map.mpr ⟨z, hz, heq⟩)
      rw [fillSome, List.foldl_cons, hv]
      exact hrest.trans Dict.get_set_self
    · exact ih hl hx

theorem get_stringMap {k : String} (h : m.get k = some (k, v)) : (stringMap m).get k = some (.str v) := by
  have hnodup : (((sortedRows m).map fun e => (e.1, Value.str e.2)).map Prod.fst).Nodup := by
    rw [List.map_map]
    exact nodup_sortedRows m
  have hmem : (k, Value.str v) ∈ (sortedRows m).map fun e => (e.1, Value.str e.2) :=
    List.mem_map.mpr ⟨(k, v), mem_sortedRows.mpr (Table.mem_of_get h), rfl⟩
  exact Value.get_of_mem hnodup hmem

theorem get_mapField_self {key k : String} (h : m.get k = some (k, v)) :
    (Value.map (mapField key m)).get key = some (stringMap m) := by
  unfold mapField
  rw [if_neg (List.ne_nil_of_mem (Table.mem_of_get h))]
  exact Value.get_cons.trans (if_pos rfl)

end Maps

section Entries
variable {r : Renderer} {p : Provided} {e : FileEntry} {entries : List FileEntry}

/-- A text, or the bytes of a binary file. -/
def FileEntry.text? (e : FileEntry) : Option String :=
  match e.content with
  | .data s => some s
  | .binary _ => none

def FileEntry.binary? (e : FileEntry) : Option String :=
  match e.content with
  | .data _ => none
  | .binary s => some s

theorem dataOf_eq (entries : List FileEntry) :
    dataOf entries = fillSome FileEntry.key FileEntry.text? Table.empty entries := by
  unfold dataOf fillSome
  congr
  funext m e
  unfold FileEntry.text?
  cases e.content <;> rfl

theorem binaryOf_eq (entries : List FileEntry) :
    binaryOf entries = fillSome FileEntry.key FileEntry.binary? Table.empty entries := by
  unfold binaryOf fillSome
  congr
  funext m e
  unfold FileEntry.binary?
  cases e.content <;> rfl

/-- A ConfigMap holds a content under a key, a text as data. -/
def HeldIn (cm : Value) (key : String) : FileContent → Prop
  | .data s => cm.find ["data", key] = some (.str s)
  | .binary s => cm.find ["binaryData", key] = some (.str s)

/-- The ConfigMap of the files. -/
def filesMap (r : Renderer) (entries : List FileEntry) : Value :=
  r.object "v1" "ConfigMap" (filesName r) []
    (mapField "data" (dataOf entries) ++ mapField "binaryData" (binaryOf entries))

/-- Each content is there under its key, where the keys are all different. -/
theorem heldIn_filesMap (hkeys : (entries.map FileEntry.key).Nodup) (he : e ∈ entries) :
    HeldIn (filesMap r entries) e.key e.content := by
  cases hcontent : e.content with
  | data s =>
    have hget : (dataOf entries).get e.key = some (e.key, s) := by
      rw [dataOf_eq]
      exact get_fillSome hkeys he (by rw [FileEntry.text?, hcontent])
    have hdata : (filesMap r entries).get "data" = some (stringMap (dataOf entries)) := by
      rw [filesMap, Renderer.object, Value.get_append, Value.get_append, get_mapField_self hget]
      rfl
    simp [HeldIn, Value.find, hdata, get_stringMap hget]
  | binary s =>
    have hget : (binaryOf entries).get e.key = some (e.key, s) := by
      rw [binaryOf_eq]
      exact get_fillSome hkeys he (by rw [FileEntry.binary?, hcontent])
    have hdata : (filesMap r entries).get "binaryData" = some (stringMap (binaryOf entries)) := by
      rw [filesMap, Renderer.object, Value.get_append, Value.get_append, get_mapField_self hget,
        get_mapField (by decide)]
      rfl
    simp [HeldIn, Value.find, hdata, get_stringMap hget]

/-- An entry made of a file. -/
structure EntryOf (r : Renderer) (p : Provided) (f : String × String × ℕ × ContainerFile)
    (e : FileEntry) : Prop where
  container : e.container = f.1
  target : e.target = f.2.1
  key : e.key = fileKey f
  content : (fileContent r p f.1 f.2.1 f.2.2.2).value = some e.content
  mode : f.2.2.2.mode.map octalMode = e.mode.map some

theorem entryOf_fileEntry {f : String × String × ℕ × ContainerFile}
    (h : Errorless (fileEntry r p f.1 f.2.1 f.2.2.1 f.2.2.2)) :
    ∃ e, (fileEntry r p f.1 f.2.1 f.2.2.1 f.2.2.2).value = some e ∧ EntryOf r p f e := by
  unfold fileEntry at h ⊢
  obtain ⟨hcontent, hrest⟩ := errorless_bind.mp h
  obtain ⟨content, hvalue⟩ := Option.isSome_iff_exists.mp (secretless_fileContent hcontent).some
  rw [hvalue] at hrest
  rw [bind_value, hvalue]
  dsimp only at hrest ⊢
  split at hrest
  · exact absurd hrest not_errorless_fail
  · next mode hmode =>
    refine ⟨_, rfl, rfl, rfl, rfl, hvalue, ?_⟩
    cases hmode' : f.2.2.2.mode.map octalMode with
    | none => rfl
    | some mode =>
      cases mode with
      | none => exact absurd hmode' hmode
      | some mode => rfl

theorem forEach_forall₂ {α β : Type} {R : α → β → Prop} {l : List α} {f : α → Built (Option β)}
    (h : ∀ a ∈ l, ∃ b, (f a).value = some b ∧ R a b) : List.Forall₂ R l (Built.forEach l f).value := by
  rw [forEach_value]
  induction l with
  | nil => exact .nil
  | cons a l ih =>
    obtain ⟨b, hb, hr⟩ := h a List.mem_cons_self
    rw [List.flatMap_cons, hb]
    exact .cons hr (ih fun a' ha' => h a' (List.mem_cons_of_mem a ha'))

theorem entriesOf_fileEntries (h : Errorless (fileEntries r p)) :
    List.Forall₂ (EntryOf r p) (fileRows r) (fileEntries r p).value := by
  have hloop : fileEntries r p = Built.forEach (fileRows r) fun f =>
    fileEntry r p f.1 f.2.1 f.2.2.1 f.2.2.2 := rfl
  rw [hloop] at h ⊢
  exact forEach_forall₂ fun f hf => entryOf_fileEntry
    (errorless_forEach (f := fun f => fileEntry r p f.1 f.2.1 f.2.2.1 f.2.2.2) h hf)

theorem map_key_entries {rows : List (String × String × ℕ × ContainerFile)}
    (h : List.Forall₂ (EntryOf r p) rows entries) : entries.map FileEntry.key = rows.map fileKey := by
  induction h with
  | nil => rfl
  | cons he _ ih => rw [List.map_cons, List.map_cons, he.key, ih]

theorem map_path_entries {rows : List (String × String × ℕ × ContainerFile)}
    (h : List.Forall₂ (EntryOf r p) rows entries) :
    entries.map (fun e => (e.container, e.target)) = rows.map fun f => (f.1, f.2.1) := by
  induction h with
  | nil => rfl
  | cons he _ ih => rw [List.map_cons, List.map_cons, he.container, he.target, ih]

theorem entryOf_of_mem {rows : List (String × String × ℕ × ContainerFile)}
    {f : String × String × ℕ × ContainerFile} (h : List.Forall₂ (EntryOf r p) rows entries)
    (hf : f ∈ rows) : ∃ e ∈ entries, EntryOf r p f e := by
  induction h with
  | nil => cases hf
  | cons he _ ih =>
    rcases List.mem_cons.mp hf with rfl | hf
    · exact ⟨_, List.mem_cons_self, he⟩
    · obtain ⟨e, hmem, he⟩ := ih hf
      exact ⟨e, List.mem_cons_of_mem _ hmem, he⟩

end Entries

section Mounted
variable {r : Renderer} {p : Provided}

/-- The items of the files' volume. -/
def itemsOf (out : FilesOut) : List Value :=
  match out.volume with
  | some v => match v.source.2.get "items" with
    | some (.list items) => items
    | _ => []
  | none => []

/-- The item of a key, with the file's mode. -/
def itemOf (key : String) (mode : Option ℕ) : Value :=
  .map ([("key", Value.str key), ("path", Value.str key)] ++ field "mode" (mode.map fun m => .num m))

/-- Each file of each container is mounted once, on a key that holds its own content and has its
mode; no key is written twice. -/
structure OwnContents (r : Renderer) (p : Provided) (out : Built FilesOut) : Prop where
  paths : out.value.mounts.map (fun m => (m.1, m.2.mountPath)) = (fileRows r).map fun f => (f.1, f.2.1)
  once : ((itemsOf out.value).map fun item => item.get "key").Nodup
  held : ∀ f ∈ fileRows r, ∃ key content mode, ∃ cm ∈ out.effects.objects,
    (f.1, Mount.mk "files" f.2.1 (some key) true) ∈ out.value.mounts ∧
    (fileContent r p f.1 f.2.1 f.2.2.2).value = some content ∧ HeldIn cm key content ∧
    f.2.2.2.mode.map octalMode = mode.map some ∧ itemOf key mode ∈ itemsOf out.value

theorem files_of_entries (hne : (fileEntries r p).value ≠ []) :
    (files r p).value.mounts = (fileEntries r p).value.map (fun e => (e.container, e.mount)) ∧
      itemsOf (files r p).value = (fileEntries r p).value.map FileEntry.item ∧
      filesMap r (fileEntries r p).value ∈ (files r p).effects.objects := by
  rw [files, bind_value, bind_effects, if_neg hne]
  refine ⟨rfl, rfl, List.mem_append_right _ ?_⟩
  exact List.mem_append_left _ (List.mem_singleton_self _)

theorem files_of_nil (hnil : (fileEntries r p).value = []) :
    (files r p).value.mounts = [] ∧ itemsOf (files r p).value = [] := by
  rw [files, bind_value, hnil]
  exact ⟨rfl, rfl⟩

/-- Every file is mounted with its own content exactly where no container is named like a file of
another; else one key is written twice. -/
theorem files_own_iff (h : (files r p).effects.errs = []) :
    OwnContents r p (files r p) ↔ Apart r := by
  have hentries := entriesOf_fileEntries (errorless_bind.mp ⟨h⟩).1
  have hkeys := map_key_entries hentries
  rw [← nodup_fileKeys_iff, ← hkeys]
  by_cases hnil : (fileEntries r p).value = []
  · have hrows : fileRows r = [] := by
      rw [hnil] at hentries
      exact List.forall₂_nil_right_iff.mp hentries
    obtain ⟨hmounts, hitems⟩ := files_of_nil hnil
    rw [hnil]
    refine iff_of_true ⟨?_, ?_, ?_⟩ List.nodup_nil
    · rw [hmounts, hrows]
      rfl
    · rw [hitems]
      exact List.nodup_nil
    · rw [hrows]
      nofun
  obtain ⟨hmounts, hitems, hmap⟩ := files_of_entries hnil
  have honce : ((itemsOf (files r p).value).map fun item => item.get "key") =
      ((fileEntries r p).value.map FileEntry.key).map fun key => some (Value.str key) := by
    rw [hitems, List.map_map, List.map_map]
    rfl
  have hinj : Function.Injective fun key : String => some (Value.str key) :=
    fun _ _ heq => Value.str.inj (Option.some.inj heq)
  constructor
  · intro hown
    have hnodup := hown.once
    rw [honce] at hnodup
    exact hnodup.of_map _
  · intro hnodup
    refine ⟨?_, ?_, fun f hf => ?_⟩
    · rw [hmounts, List.map_map]
      exact map_path_entries hentries
    · rw [honce]
      exact hnodup.map hinj
    · obtain ⟨e, he, hof⟩ := entryOf_of_mem hentries hf
      refine ⟨e.key, e.content, e.mode, _, hmap, ?_, hof.content, heldIn_filesMap hnodup he, hof.mode, ?_⟩
      · rw [hmounts, ← hof.container, ← hof.target]
        exact List.mem_map_of_mem he
      · rw [hitems]
        exact List.mem_map_of_mem he

end Mounted

section Runs

def withFile (target content : String) : Container :=
  { smallContainer with
    files := ⟨[(target, ⟨some content, none, some "0440", some true⟩)], List.nodup_singleton _⟩ }

/-- Two containers with a file each. -/
def twoFiles (first target second target' : String) (h : first ≠ second) : Renderer :=
  { smallInput.renderer mapsLib "alpha" with
    workload := { smallInput.workload with
      containers := ⟨[(first, withFile target "one"), (second, withFile target' "two")], by
        simpa using h⟩ } }

/-- The file of `a` is `a-0-0-x`, as is that of `a-0`. -/
def meetingFiles : Renderer := twoFiles "a" "/etc/0-x" "a-0" "/etc/x" (by decide)

theorem apartFiles_own_iff :
    OwnContents (twoFiles "a" "/etc/x" "b" "/etc/x" (by decide)) Provided.none
        (files (twoFiles "a" "/etc/x" "b" "/etc/x" (by decide)) Provided.none) ↔
      Apart (twoFiles "a" "/etc/x" "b" "/etc/x" (by decide)) :=
  files_own_iff (by decide)

/-- One key is written twice: `a` has `/etc/0-x` mounted with the content of the other's file. -/
theorem meetingFiles_clash :
    (files meetingFiles Provided.none).effects.errs = [] ∧
    meetingFiles.workload.containers.rows.all (fun c => dnsLabel c.1) = true ∧
    (files meetingFiles Provided.none).value.mounts.map
        (fun m => (m.1, m.2.mountPath, m.2.subPath)) =
      [("a", "/etc/0-x", some "a-0-0-x"), ("a-0", "/etc/x", some "a-0-0-x")] ∧
    (files meetingFiles Provided.none).effects.objects.map (fun o => o.find ["data", "a-0-0-x"]) =
      [some (.str "two")] ∧
    ¬ OwnContents meetingFiles Provided.none (files meetingFiles Provided.none) := by
  refine ⟨by decide, by decide, by decide, by decide, fun hown => ?_⟩
  exact absurd hown.once (by decide)

end Runs
end Kubeast.Render
