import Mathlib.Data.String.Basic
import Kubeast.Foundation.Sorted
import Kubeast.Foundation.Table
import Kubeast.Foundation.Text
import Kubeast.Source.SetFile

/-! A commit on top of another sets the files it is given and nothing else
(`internal/source/write.go`). -/
namespace Kubeast.Source
open Layout (Above Fits)
open Sorted

section Sorter
variable {entries : List Entry} {e : Entry}

/-- A folder is sorted as if its name ended in a slash. -/
def sortKey (e : Entry) : String :=
  match e.2 with
  | .file _ => e.1
  | .folder _ => e.1 ++ "/"

theorem takeWhile_sortKey (h : '/' ∉ e.1.toList) : (sortKey e).toList.takeWhile (· ≠ '/') = e.1.toList := by
  have hplain : ∀ c ∈ e.1.toList, decide (c ≠ '/') = true := fun c hc =>
    decide_eq_true fun heq => h (heq ▸ hc)
  unfold sortKey
  cases e.2 with
  | file f => exact List.takeWhile_eq_self_iff.mpr hplain
  | folder sub =>
    dsimp only
    rw [String.toList_append, List.takeWhile_append_of_pos hplain]
    exact List.append_nil _

theorem nodup_sortKey (h : Distinct entries) : (entries.map sortKey).Nodup := by
  have hnames : (entries.map sortKey).map (fun key => key.toList.takeWhile (· ≠ '/')) =
      (entries.map Prod.fst).map String.toList := by
    rw [List.map_map, List.map_map]
    exact List.map_congr_left fun e he => takeWhile_sortKey (h.2 e he)
  refine List.Nodup.of_map (fun key : String => key.toList.takeWhile (· ≠ '/')) ?_
  rw [hnames]
  exact h.1.map fun _ _ => String.toList_inj.mp

/-- Git's order is one of its kind. -/
def TreeEntrySorter.git : TreeEntrySorter where
  sort := sortBy sortKey
  perm := perm_sortBy sortKey
  canonical entries entries' hperm h :=
    (increasing_sortBy (nodup_sortKey h)).ext (increasing_sortBy (nodup_sortKey (distinct_perm hperm h)))
      fun e => by rw [mem_sortBy, mem_sortBy, hperm.mem_iff]

end Sorter

section Commit

/-- `strings.Split(p, "/")`. -/
def split (p : String) : List String := (p.toList.splitOn '/').map String.ofList

/-- `fs.ValidPath`. -/
def validPath (p : String) : Bool := p == "." || (split p).all fun e => !(["", ".", ".."].contains e)

/-- A file's path in the layout. -/
def cleanPath (p : String) : Bool :=
  validPath p && p != "." && !Text.hasPrefix p ".git/" && p != ".git"

/-- A folder whose folders all are `Distinct`. -/
structure Tree where
  entries : List Entry
  clean : Clean entries

/-- The files one after the other. -/
def setFiles (sorter : TreeEntrySorter) : List Entry → List (String × Bytes) → Except String (List Entry)
  | entries, [] => .ok entries
  | entries, (p, data) :: files =>
    match setFile sorter data entries (split p).headI (split p).tail with
    | .error e => .error (p ++ ": " ++ e)
    | .ok entries => setFiles sorter entries files

/-- `Signature`; without a time the commit takes the present. -/
structure Signature where
  name : String
  email : String
  time : Option ℤ

structure CommitObject where
  who : Signature
  message : String
  entries : List Entry
  parent : String

/-- A repository's trees: their hashes, and those of its commits. -/
structure Repo (H : Type) where
  hash : List Entry → H
  tree : String → Option Tree

def commitHex (base : String) : Bool :=
  base.toList.length == 40 && base.toList.all fun c => c.isDigit || ('a' ≤ c && c ≤ 'f')

/-- `Commit`. -/
def Repo.commit {H : Type} [DecidableEq H] (r : Repo H) (sorter : TreeEntrySorter) (tables : Text.CharTables)
    (now : ℤ) (base : String) (files : Dict String Bytes) (who : Signature) (message : String) :
    Except String CommitObject :=
  if commitHex base = false then
    .error ("commit " ++ Text.quote tables base ++ " is not a full SHA-1 in lower case")
  else if files.rows = [] then .error "no files to commit"
  else if who.name = "" ∨ '@' ∉ who.email.toList then .error "a commit needs an author name and email"
  else if Text.trimSpace message = "" then .error "a commit needs a message"
  else match files.rows.find? fun f => !cleanPath f.1 with
  | some f => .error ("path " ++ Text.quote tables f.1 ++ " is not a clean file path in the layout")
  | none =>
    match r.tree base with
    | none => .error ("commit " ++ base ++ ": not found")
    | some tree =>
      match setFiles sorter tree.entries (sortBy Prod.fst files.rows) with
      | .error e => .error e
      | .ok entries =>
        if r.hash entries = r.hash tree.entries then .error "the files are already as given"
        else .ok ⟨{ who with time := some (who.time.getD now) }, message, entries, base⟩

end Commit

section Paths
variable {p p' : String}

theorem split_ne_nil : split p ≠ [] := by
  rw [split, ne_eq, List.map_eq_nil_iff]
  exact List.splitOn_ne_nil _ _

theorem headI_cons_tail : (split p).headI :: (split p).tail = split p := by
  obtain ⟨name, rest, h⟩ := List.exists_cons_of_ne_nil (split_ne_nil (p := p))
  rw [h]
  rfl

theorem split_injective (h : split p = split p') : p = p' := by
  have hparts := congrArg (List.map String.toList) h
  rw [split, split, List.map_map, List.map_map] at hparts
  have hid : String.toList ∘ String.ofList = id := funext fun _ => String.toList_ofList
  rw [hid, List.map_id, List.map_id] at hparts
  have hjoin (q : String) : ['/'].intercalate (q.toList.splitOn '/') = q.toList := List.intercalate_splitOn '/'
  rw [← String.toList_inj, ← hjoin p, hparts, hjoin p']

theorem slash_notMem_split : ∀ n ∈ split p, '/' ∉ n.toList := by
  intro n hn
  obtain ⟨part, hpart, rfl⟩ := List.mem_map.mp hn
  rw [String.toList_ofList]
  exact Text.notMem_of_mem_splitOn hpart

end Paths

section SetFiles
variable {sorter : TreeEntrySorter} {entries entries' : List Entry} {l l' : List (String × Bytes)}
  {f : String × Bytes}

theorem setFiles_cons_ok : setFiles sorter entries (f :: l) = .ok entries' ↔
    ∃ next, setFile sorter f.2 entries (split f.1).headI (split f.1).tail = .ok next ∧
      setFiles sorter next l = .ok entries' := by
  rw [setFiles]
  cases setFile sorter f.2 entries (split f.1).headI (split f.1).tail <;> simp

/-- What a file is to the layout of a tree. -/
def writeOf (f : String × Bytes) : List String × (Option (Layout.Entry File) → File) :=
  (split f.1, written f.2)

theorem clean_next (h : Clean entries) {next : List Entry}
    (hset : setFile sorter f.2 entries (split f.1).headI (split f.1).tail = .ok next) : Clean next :=
  setFile_clean h (headI_cons_tail.symm ▸ slash_notMem_split) hset

theorem look_next (h : Clean entries) {next : List Entry}
    (hset : setFile sorter f.2 entries (split f.1).headI (split f.1).tail = .ok next) :
    look next = Layout.set (look entries) (split f.1) (written f.2) := by
  rw [look_setFile h (headI_cons_tail.symm ▸ slash_notMem_split) hset, headI_cons_tail]

theorem look_setFiles (h : Clean entries) (hset : setFiles sorter entries l = .ok entries') :
    look entries' = Layout.sets (look entries) (l.map writeOf) := by
  induction l generalizing entries with
  | nil =>
    obtain rfl : entries = entries' := Except.ok.inj hset
    rfl
  | cons f l ih =>
    obtain ⟨next, hnext, hrest⟩ := setFiles_cons_ok.mp hset
    rw [ih (clean_next h hnext) hrest, look_next h hnext]
    rfl

theorem setFiles_isOk (sorter : TreeEntrySorter) (h : Clean entries) :
    (∃ entries', setFiles sorter entries l = .ok entries') ↔ Layout.AllFit plain (look entries) (l.map writeOf) := by
  induction l generalizing entries with
  | nil => exact iff_of_true ⟨entries, rfl⟩ trivial
  | cons f l ih =>
    have hfits : (∃ next, setFile sorter f.2 entries (split f.1).headI (split f.1).tail = .ok next) ↔
        Fits plain (look entries) (split f.1) := by
      rw [setFile_isOk h, headI_cons_tail]
    constructor
    · rintro ⟨entries', hset⟩
      obtain ⟨next, hnext, hrest⟩ := setFiles_cons_ok.mp hset
      refine ⟨hfits.mp ⟨next, hnext⟩, ?_⟩
      have hafter := (ih (clean_next h hnext)).mp ⟨entries', hrest⟩
      rwa [look_next h hnext] at hafter
    · rintro ⟨hfit, hall⟩
      obtain ⟨next, hnext⟩ := hfits.mpr hfit
      change Layout.AllFit plain (Layout.set _ (split f.1) (written f.2)) _ at hall
      rw [← look_next h hnext] at hall
      obtain ⟨entries', hrest⟩ := (ih (clean_next h hnext)).mpr hall
      exact ⟨entries', setFiles_cons_ok.mpr ⟨next, hnext, hrest⟩⟩

/-- The order of the files does not matter. -/
theorem setFiles_perm (h : Clean entries) (hdistinct : (l.map Prod.fst).Nodup) (hperm : l.Perm l')
    (hset : setFiles sorter entries l = .ok entries') : setFiles sorter entries l' = .ok entries' := by
  induction hperm generalizing entries with
  | nil => exact hset
  | cons f _ ih =>
    obtain ⟨next, hnext, hrest⟩ := setFiles_cons_ok.mp hset
    rw [List.map_cons, List.nodup_cons] at hdistinct
    exact setFiles_cons_ok.mpr ⟨next, hnext, ih (clean_next h hnext) hdistinct.2 hrest⟩
  | swap f g l =>
    obtain ⟨first, hfirst, hrest⟩ := setFiles_cons_ok.mp hset
    obtain ⟨second, hsecond, hlast⟩ := setFiles_cons_ok.mp hrest
    have hne : (split g.1).headI :: (split g.1).tail ≠ (split f.1).headI :: (split f.1).tail := by
      rw [headI_cons_tail, headI_cons_tail]
      exact fun heq => by simp [split_injective heq] at hdistinct
    obtain ⟨first', hfirst', hsecond'⟩ := setFile_comm h (headI_cons_tail.symm ▸ slash_notMem_split)
      (headI_cons_tail.symm ▸ slash_notMem_split) hne hfirst hsecond
    exact setFiles_cons_ok.mpr ⟨first', hfirst', setFiles_cons_ok.mpr ⟨second, hsecond', hlast⟩⟩
  | trans h₁ _ ih₁ ih₂ =>
    exact ih₂ h ((h₁.map Prod.fst).nodup_iff.mp hdistinct) (ih₁ h hdistinct hset)

end SetFiles

section Result
variable {sorter : TreeEntrySorter} {entries entries' : List Entry} {files : Dict String Bytes}
  {q : List String}

/-- The given paths. -/
def paths (files : Dict String Bytes) : List (List String) := files.rows.map fun f => split f.1

/-- What stops a commit: a path that runs through what is no folder, in the tree or among the given
paths, or that ends at what is no file. -/
def Blocked (entries : List Entry) (files : Dict String Bytes) : Prop :=
  ∃ p ∈ paths files,
    (∃ q, Above q p ∧ ((∃ f, look entries q = some (.file f)) ∨ q ∈ paths files)) ∨
    ∃ e, look entries p = some e ∧ ∀ f, e = .file f → ¬plain f

/-- A tree that holds the given files, and otherwise what another holds. -/
structure Sets (entries entries' : List Entry) (files : Dict String Bytes) : Prop where
  given : ∀ f ∈ files.rows, look entries' (split f.1) = some (.file (written f.2 (look entries (split f.1))))
  kept : ∀ q ∉ paths files, ∀ e, look entries q = some e → look entries' q = some e
  /-- Nothing else is there but the folders of the given files. -/
  only : ∀ q ∉ paths files, ∀ e, look entries' q = some e →
    look entries q = some e ∨ (e = .folder ∧ ∃ p ∈ paths files, Above q p)

theorem nodup_writes : (((sortBy Prod.fst files.rows).map writeOf).map Prod.fst).Nodup := by
  have hkeys : ((sortBy Prod.fst files.rows).map Prod.fst).Nodup :=
    ((perm_sortBy Prod.fst files.rows).map Prod.fst).nodup_iff.mpr files.nodup
  have hpaths : ((sortBy Prod.fst files.rows).map writeOf).map Prod.fst =
      ((sortBy Prod.fst files.rows).map Prod.fst).map split := by
    rw [List.map_map, List.map_map]
    rfl
  rw [hpaths]
  exact hkeys.map fun _ _ => split_injective

theorem forall_writes {P : List String → Prop} :
    (∀ w ∈ (sortBy Prod.fst files.rows).map writeOf, P w.1) ↔ ∀ p ∈ paths files, P p := by
  rw [paths, List.forall_mem_map, List.forall_mem_map]
  exact forall_congr' fun f => by rw [mem_sortBy]; rfl

/-- What is not blocked can be set one after the other. -/
theorem not_blocked_iff : ¬Blocked entries files ↔
    Layout.AllFit plain (look entries) ((sortBy Prod.fst files.rows).map writeOf) := by
  have hpairs : (∀ w ∈ (sortBy Prod.fst files.rows).map writeOf,
      ∀ w' ∈ (sortBy Prod.fst files.rows).map writeOf, ¬Above w.1 w'.1) ↔
        ∀ q ∈ paths files, ∀ p ∈ paths files, ¬Above q p :=
    (forall₂_congr fun (w : List String × (Option (Layout.Entry File) → File)) _ =>
      forall_writes (P := fun p => ¬Above w.1 p)).trans
      (forall_writes (P := fun q => ∀ p ∈ paths files, ¬Above q p))
  rw [Layout.allFit_iff nodup_writes, forall_writes (P := Fits plain (look entries)), hpairs]
  constructor
  · intro h
    refine ⟨fun p hp => ⟨fun q hq f hf => ?_, fun e he => ?_⟩, fun q hq p hp habove => ?_⟩
    · exact h ⟨p, hp, Or.inl ⟨q, hq, Or.inl ⟨f, hf⟩⟩⟩
    · by_contra hnone
      exact h ⟨p, hp, Or.inr ⟨e, he, fun f hf hplain => hnone ⟨f, hf, hplain⟩⟩⟩
    · exact h ⟨p, hp, Or.inl ⟨q, habove, Or.inr hq⟩⟩
  · rintro ⟨hfits, hpairs⟩ ⟨p, hp, ⟨q, habove, ⟨f, hf⟩ | hq⟩ | ⟨e, he, hnone⟩⟩
    · exact (hfits p hp).above q habove f hf
    · exact hpairs q hq p hp habove
    · obtain ⟨f, hf, hplain⟩ := (hfits p hp).here e he
      exact hnone f hf hplain

theorem sets_of_setFiles (h : Clean entries)
    (hset : setFiles sorter entries (sortBy Prod.fst files.rows) = .ok entries') :
    Sets entries entries' files := by
  have hall := (setFiles_isOk sorter h).mp ⟨entries', hset⟩
  obtain ⟨hfits, hpairs⟩ := (Layout.allFit_iff nodup_writes).mp hall
  have hlook := look_setFiles h hset
  have hwrite {p : List String} (hp : p ∈ paths files) :
      ∃ w ∈ (sortBy Prod.fst files.rows).map writeOf, w.1 = p := by
    obtain ⟨f, hf, rfl⟩ := List.mem_map.mp hp
    exact ⟨writeOf f, List.mem_map_of_mem (mem_sortBy.mpr hf), rfl⟩
  have hother {q : List String} (hq : q ∉ paths files) (hbelow : ¬∃ p ∈ paths files, Above q p) :
      look entries' q = look entries q := by
    rw [hlook]
    refine Layout.sets_other (forall_writes (P := fun p => q ≠ p ∧ ¬Above q p) |>.mpr fun p hp => ?_)
    exact ⟨fun heq => hq (heq ▸ hp), fun habove => hbelow ⟨p, hp, habove⟩⟩
  have habove {q p : List String} (hp : p ∈ paths files) (hqp : Above q p) :
      look entries' q = some .folder := by
    obtain ⟨w, hw, rfl⟩ := hwrite hp
    rw [hlook]
    exact Layout.sets_above hpairs hw hqp
  constructor
  · intro f hf
    rw [hlook]
    exact Layout.sets_mem nodup_writes hpairs (List.mem_map_of_mem (f := writeOf) (mem_sortBy.mpr hf))
  · intro q hq e he
    by_cases hbelow : ∃ p ∈ paths files, Above q p
    · obtain ⟨p, hp, hqp⟩ := hbelow
      obtain ⟨w, hw, rfl⟩ := hwrite hp
      rw [habove hp hqp]
      cases e with
      | folder => rfl
      | file f => exact absurd he ((hfits w hw).above q hqp f)
    · rw [hother hq hbelow, he]
  · intro q hq e he
    by_cases hbelow : ∃ p ∈ paths files, Above q p
    · obtain ⟨p, hp, hqp⟩ := hbelow
      rw [habove hp hqp] at he
      exact Or.inr ⟨(Option.some.inj he).symm, p, hp, hqp⟩
    · exact Or.inl (hother hq hbelow ▸ he)

theorem toOption_eq_some {α : Type} {x : Except String α} {a : α} : x.toOption = some a ↔ x = .ok a := by
  cases x <;> simp [Except.toOption]

/-- A commit sets the given files and nothing else, or fails where one of them cannot be set; the order
in which they are set makes no difference. -/
theorem setFiles_iff (sorter : TreeEntrySorter) (tree : Tree) (files : Dict String Bytes) :
    ((∃ e, setFiles sorter tree.entries (sortBy Prod.fst files.rows) = .error e) ↔
      Blocked tree.entries files) ∧
    (∀ entries', setFiles sorter tree.entries (sortBy Prod.fst files.rows) = .ok entries' →
      Sets tree.entries entries' files) ∧
    ∀ order : List (String × Bytes), order.Perm files.rows →
      (setFiles sorter tree.entries order).toOption =
        (setFiles sorter tree.entries (sortBy Prod.fst files.rows)).toOption := by
  have hsorted := perm_sortBy Prod.fst files.rows
  refine ⟨?_, fun entries' => sets_of_setFiles tree.clean, fun order hperm => ?_⟩
  · have hok := setFiles_isOk sorter (l := sortBy Prod.fst files.rows) tree.clean
    rw [← not_iff_not, not_blocked_iff, ← hok]
    cases setFiles sorter tree.entries (sortBy Prod.fst files.rows) <;> simp
  · refine Option.ext fun entries' => ?_
    rw [toOption_eq_some, toOption_eq_some]
    have horder := hperm.trans hsorted.symm
    constructor
    · exact setFiles_perm tree.clean ((hperm.map Prod.fst).nodup_iff.mpr files.nodup) horder
    · exact setFiles_perm tree.clean ((hsorted.map Prod.fst).nodup_iff.mpr files.nodup) horder.symm

/-- An executable stays one, and folders are made on the way. -/
example : (setFiles .git [("bin", .folder [("run.sh", .file ⟨.executable, [1]⟩)])]
      [("bin/run.sh", [2]), ("new/deep/file.txt", [3])]).toOption.map
        (fun t => [look t ["bin", "run.sh"], look t ["new", "deep"], look t ["new", "deep", "file.txt"]]) =
      some [some (.file ⟨.executable, [2]⟩), some .folder, some (.file ⟨.regular, [3]⟩)] := by
  decide

/-- A commit that is made holds the files it was given on top of its parent, and is another tree. -/
theorem commit_sets {H : Type} [DecidableEq H] {r : Repo H} {sorter : TreeEntrySorter}
    {tables : Text.CharTables} {now : ℤ} {base message : String} {who : Signature} {c : CommitObject}
    (h : r.commit sorter tables now base files who message = .ok c) :
    ∃ tree, r.tree base = some tree ∧ c.parent = base ∧ Sets tree.entries c.entries files ∧
      c.entries ≠ tree.entries := by
  unfold Repo.commit at h
  split_ifs at h
  cases hfind : files.rows.find? fun f => !cleanPath f.1 with
  | some f => rw [hfind] at h; exact nomatch h
  | none =>
    rw [hfind] at h
    cases htree : r.tree base with
    | none => rw [htree] at h; exact nomatch h
    | some tree =>
      rw [htree] at h
      dsimp only at h
      cases hset : setFiles sorter tree.entries (sortBy Prod.fst files.rows) with
      | error e => rw [hset] at h; exact nomatch h
      | ok entries =>
        rw [hset] at h
        dsimp only at h
        split_ifs at h with hsame
        obtain rfl := Except.ok.inj h
        exact ⟨tree, rfl, rfl, sets_of_setFiles tree.clean hset, fun heq => hsame (congrArg r.hash heq)⟩

end Result
end Kubeast.Source
