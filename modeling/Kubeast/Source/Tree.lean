import Mathlib.Data.List.Nodup
import Kubeast.Foundation.Sha256
import Kubeast.Foundation.Layout

/-! Git trees: the entries of a folder, and the files that a commit writes into them. -/
namespace Kubeast.Source

section Entries

/-- What an entry that is no folder is. -/
inductive FileMode
  | regular
  | executable
  | deprecated
  | symlink
  | submodule
deriving DecidableEq

def FileMode.isFile : FileMode → Bool
  | regular | executable | deprecated => true
  | symlink | submodule => false

/-- A blob with its mode; of a link its target, of a submodule its commit. -/
structure File where
  mode : FileMode
  data : Bytes
deriving DecidableEq

/-- An object is what it holds: hashes are as good as their objects. -/
inductive Node
  | file (f : File)
  | folder (entries : List (String × Node))

/-- `TreeEntry`. -/
abbrev Entry := String × Node

/-- The last place of a name. -/
def place (entries : List Entry) (name : String) : Option ℕ :=
  entries.zipIdx.foldl (fun i e => if e.1.1 = name then some e.2 else i) none

def find (entries : List Entry) (name : String) : Option Node :=
  (place entries name).bind fun i => entries[i]?.map Prod.snd

def put (entries : List Entry) (name : String) (node : Node) : List Entry :=
  match place entries name with
  | some i => entries.set i (name, node)
  | none => entries ++ [(name, node)]

/-- The names of a folder differ, and none is a path. -/
def Distinct (entries : List Entry) : Prop :=
  (entries.map Prod.fst).Nodup ∧ ∀ e ∈ entries, '/' ∉ e.1.toList

/-- `sort.Sort(TreeEntrySorter(…))`: git's one order of the entries of a folder. -/
structure TreeEntrySorter where
  sort : List Entry → List Entry
  perm : ∀ entries, (sort entries).Perm entries
  canonical : ∀ entries entries', entries.Perm entries' → Distinct entries → sort entries = sort entries'

/-- The entry that a file is written to. -/
def TreeEntrySorter.store (sorter : TreeEntrySorter) (entries : List Entry) (name : String) (node : Node) :
    List Entry :=
  sorter.sort (put entries name node)

end Entries

section SetFile

/-- The mode of a file that is written: an executable stays one. -/
def modeOf (name : String) : Option Node → Except String FileMode
  | none => .ok .regular
  | some (.file f) => if f.mode.isFile then .ok f.mode else .error (name ++ " is not a file")
  | some (.folder _) => .error (name ++ " is not a file")

/-- The entries of a folder on the way; it is made where there is none. -/
def folderOf (name : String) : Option Node → Except String (List Entry)
  | none => .ok []
  | some (.folder entries) => .ok entries
  | some (.file _) => .error (name ++ " is not a folder")

/-- `setFile`, at a path of a first name and the rest. -/
def setFile (sorter : TreeEntrySorter) (data : Bytes) :
    List Entry → String → List String → Except String (List Entry)
  | entries, name, [] => (modeOf name (find entries name)).map fun mode =>
      sorter.store entries name (.file ⟨mode, data⟩)
  | entries, name, next :: rest => (folderOf name (find entries name)).bind fun sub =>
      (setFile sorter data sub next rest).map fun sub => sorter.store entries name (.folder sub)

/-- What stands at a path. -/
def look : List Entry → Layout String File
  | _, [] => some .folder
  | entries, name :: rest =>
    match find entries name with
    | none => none
    | some (.file f) => if rest = [] then some (.file f) else none
    | some (.folder sub) => look sub rest

end SetFile

section Find
variable {entries entries' : List Entry} {e : Entry} {name name' : String} {node node' : Node} {i : ℕ}

theorem place_append : place (entries ++ [e]) name =
    if e.1 = name then some entries.length else place entries name := by
  rw [place, List.zipIdx_append, List.foldl_append]
  simp [place]

theorem place_eq_none : place entries name = none ↔ name ∉ entries.map Prod.fst := by
  induction entries using List.reverseRecOn with
  | nil => exact iff_of_true rfl List.not_mem_nil
  | append_singleton entries e ih =>
    rw [place_append, List.map_append, List.mem_append, not_or, List.map_singleton, List.mem_singleton, ← ih]
    split_ifs with heq
    · exact iff_of_false (by simp) fun h => h.2 heq.symm
    · exact (and_iff_left fun h => heq h.symm).symm

/-- A place splits the entries at one of the name. -/
theorem place_eq_some (h : place entries name = some i) :
    ∃ before node after, entries = before ++ (name, node) :: after ∧ before.length = i := by
  induction entries using List.reverseRecOn with
  | nil => exact nomatch h
  | append_singleton entries e ih =>
    rw [place_append] at h
    split_ifs at h with heq
    · exact ⟨entries, e.2, [], by rw [← heq], Option.some.inj h⟩
    · obtain ⟨before, node, after, rfl, hlen⟩ := ih h
      exact ⟨before, node, after ++ [e], by simp, hlen⟩

theorem filter_ne_of_notMem (h : name ∉ entries.map Prod.fst) :
    (entries.filter fun e => e.1 ≠ name) = entries :=
  List.filter_eq_self.mpr fun e he => decide_eq_true fun heq => h (List.mem_map.mpr ⟨e, he, heq⟩)

/-- Putting an entry replaces that of its name. -/
theorem put_perm (h : (entries.map Prod.fst).Nodup) :
    (put entries name node).Perm ((name, node) :: entries.filter fun e => e.1 ≠ name) := by
  unfold put
  cases hplace : place entries name with
  | none =>
    rw [filter_ne_of_notMem (place_eq_none.mp hplace)]
    exact List.perm_append_singleton _ _
  | some i =>
    obtain ⟨before, old, after, rfl, rfl⟩ := place_eq_some hplace
    have hmiddle : (before ++ (name, old) :: after).Perm ((name, old) :: (before ++ after)) := List.perm_middle
    have hnodup := (hmiddle.map Prod.fst).nodup_iff.mp h
    have hset : (before ++ (name, old) :: after).set before.length (name, node) =
        before ++ (name, node) :: after := by simp
    have hfilter : ((before ++ (name, old) :: after).filter fun e => e.1 ≠ name) = before ++ after := by
      rw [List.filter_append, List.filter_cons_of_neg (by simp), ← List.filter_append,
        filter_ne_of_notMem (List.nodup_cons.mp hnodup).1]
    dsimp only
    rw [hset, hfilter]
    exact List.perm_middle

theorem find_iff (h : (entries.map Prod.fst).Nodup) :
    find entries name = some node ↔ (name, node) ∈ entries := by
  unfold find
  cases hplace : place entries name with
  | none =>
    refine iff_of_false (fun h => nomatch h) fun hmem => ?_
    exact place_eq_none.mp hplace (List.mem_map.mpr ⟨_, hmem, rfl⟩)
  | some i =>
    obtain ⟨before, old, after, rfl, rfl⟩ := place_eq_some hplace
    have hmem : (name, old) ∈ before ++ (name, old) :: after := List.mem_append_right _ List.mem_cons_self
    rw [Option.bind_some, List.getElem?_append_right le_rfl, Nat.sub_self, List.getElem?_cons_zero,
      Option.map_some, Option.some_inj]
    constructor
    · rintro rfl
      exact hmem
    · intro hnode
      exact congrArg Prod.snd (List.inj_on_of_nodup_map h hmem hnode rfl)

end Find

section Store
variable {sorter : TreeEntrySorter} {entries entries' : List Entry} {name name' : String}
  {node node' : Node}

theorem distinct_perm (hperm : entries.Perm entries') (h : Distinct entries) : Distinct entries' :=
  ⟨(hperm.map Prod.fst).nodup_iff.mp h.1, fun e he => h.2 e (hperm.mem_iff.mpr he)⟩

theorem store_perm (h : Distinct entries) :
    (sorter.store entries name node).Perm ((name, node) :: entries.filter fun e => e.1 ≠ name) :=
  (sorter.perm _).trans (put_perm h.1)

theorem distinct_cons_filter (h : Distinct entries) (hname : '/' ∉ name.toList) :
    Distinct ((name, node) :: entries.filter fun e => e.1 ≠ name) := by
  constructor
  · rw [List.map_cons, List.nodup_cons]
    refine ⟨fun hmem => ?_, h.1.sublist (List.filter_sublist.map Prod.fst)⟩
    obtain ⟨e, he, heq⟩ := List.mem_map.mp hmem
    exact of_decide_eq_true (List.mem_filter.mp he).2 heq
  · rw [List.forall_mem_cons]
    exact ⟨hname, fun e he => h.2 e (List.mem_filter.mp he).1⟩

theorem distinct_put (h : Distinct entries) (hname : '/' ∉ name.toList) :
    Distinct (put entries name node) :=
  distinct_perm (put_perm h.1).symm (distinct_cons_filter h hname)

theorem distinct_store (h : Distinct entries) (hname : '/' ∉ name.toList) :
    Distinct (sorter.store entries name node) :=
  distinct_perm (sorter.perm _).symm (distinct_put h hname)

theorem mem_store (h : Distinct entries) {e : Entry} : e ∈ sorter.store entries name node ↔
    e = (name, node) ∨ (e ∈ entries ∧ e.1 ≠ name) := by
  rw [(store_perm h).mem_iff, List.mem_cons, List.mem_filter, decide_eq_true_iff]

theorem find_store (h : Distinct entries) (hname : '/' ∉ name.toList) :
    find (sorter.store entries name node) name' =
      if name' = name then some node else find entries name' := by
  refine Option.ext fun x => ?_
  rw [find_iff (distinct_store h hname).1, mem_store h, Prod.mk.injEq]
  split_ifs with heq
  · simp [heq, eq_comm]
  · rw [find_iff h.1]
    simp [heq]

theorem put_store_perm (h : Distinct entries) (hname : '/' ∉ name.toList) :
    (put (sorter.store entries name node) name' node').Perm
      ((name', node') :: ((name, node) :: entries.filter fun e => e.1 ≠ name).filter fun e => e.1 ≠ name') :=
  (put_perm (distinct_store h hname).1).trans (((store_perm h).filter _).cons _)

/-- Two entries may be stored in either order. -/
theorem store_comm (h : Distinct entries) (hname : '/' ∉ name.toList) (hname' : '/' ∉ name'.toList)
    (hne : name ≠ name') :
    sorter.store (sorter.store entries name node) name' node' =
      sorter.store (sorter.store entries name' node') name node := by
  refine sorter.canonical _ _ ?_ (distinct_put (distinct_store h hname) hname')
  refine ((put_store_perm h hname).trans ?_).trans (put_store_perm h hname').symm
  rw [List.filter_cons_of_pos (by simpa using hne), List.filter_cons_of_pos (by simpa using hne.symm),
    List.filter_filter, List.filter_filter, List.filter_congr fun e _ => Bool.and_comm _ _]
  exact List.Perm.swap _ _ _

/-- Of two entries of a name the second one is left. -/
theorem store_store (h : Distinct entries) (hname : '/' ∉ name.toList) :
    sorter.store (sorter.store entries name node) name node' = sorter.store entries name node' := by
  refine sorter.canonical _ _ ?_ (distinct_put (distinct_store h hname) hname)
  refine ((put_store_perm h hname).trans ?_).trans (put_perm h.1).symm
  rw [List.filter_cons_of_neg (by simp), List.filter_filter]
  simp

end Store

section Nodes
variable {sorter : TreeEntrySorter} {data : Bytes} {entries entries' : List Entry} {name : String}
  {node : Node} {rest : List String}

/-- The entry that `setFile` stores. -/
def setNode (sorter : TreeEntrySorter) (data : Bytes) (name : String) (old : Option Node) :
    List String → Except String Node
  | [] => (modeOf name old).map fun mode => .file ⟨mode, data⟩
  | next :: rest => (folderOf name old).bind fun sub => (setFile sorter data sub next rest).map .folder

theorem setFile_ok : setFile sorter data entries name rest = .ok entries' ↔
    ∃ node, setNode sorter data name (find entries name) rest = .ok node ∧
      sorter.store entries name node = entries' := by
  cases rest with
  | nil =>
    rw [setFile, setNode]
    cases modeOf name (find entries name) <;> simp [Except.map]
  | cons next rest =>
    rw [setFile, setNode]
    cases folderOf name (find entries name) with
    | error e => simp [Except.bind]
    | ok sub => cases hsub : setFile sorter data sub next rest <;> simp [Except.bind, Except.map, hsub]

theorem setNode_nil_ok {old : Option Node} : setNode sorter data name old [] = .ok node ↔
    ∃ mode, modeOf name old = .ok mode ∧ .file ⟨mode, data⟩ = node := by
  rw [setNode]
  cases modeOf name old <;> simp [Except.map]

theorem setNode_cons_ok {old : Option Node} {next : String} :
    setNode sorter data name old (next :: rest) = .ok node ↔
      ∃ sub new, folderOf name old = .ok sub ∧ setFile sorter data sub next rest = .ok new ∧
        .folder new = node := by
  rw [setNode]
  cases folderOf name old with
  | error e => simp [Except.bind]
  | ok sub => cases hsub : setFile sorter data sub next rest <;> simp [Except.bind, Except.map, hsub]

end Nodes

section Clean
variable {sorter : TreeEntrySorter} {data : Bytes} {entries entries' : List Entry} {name next : String}
  {node : Node} {rest : List String}

/-- A tree whose folders all are `Distinct`. -/
inductive Clean : List Entry → Prop
  | intro {entries : List Entry} (distinct : Distinct entries)
      (folders : ∀ name sub, (name, Node.folder sub) ∈ entries → Clean sub) : Clean entries

theorem Clean.distinct (h : Clean entries) : Distinct entries := by
  cases h
  assumption

theorem Clean.folders (h : Clean entries) {sub : List Entry} (hmem : (name, Node.folder sub) ∈ entries) :
    Clean sub := by
  cases h with
  | intro _ folders => exact folders name sub hmem

theorem clean_nil : Clean [] := .intro ⟨List.nodup_nil, nofun⟩ nofun

theorem Clean.store (h : Clean entries) (hname : '/' ∉ name.toList)
    (hnode : ∀ sub, node = .folder sub → Clean sub) : Clean (sorter.store entries name node) := by
  refine .intro (distinct_store h.distinct hname) fun name' sub hmem => ?_
  rcases (mem_store h.distinct).mp hmem with heq | ⟨hmem, -⟩
  · exact hnode sub (Prod.mk.inj heq).2.symm
  · exact h.folders hmem

theorem Clean.folderOf (h : Clean entries) {sub : List Entry}
    (hsub : folderOf name (find entries name) = .ok sub) : Clean sub := by
  cases hfind : find entries name with
  | none =>
    rw [hfind] at hsub
    obtain rfl : [] = sub := Except.ok.inj hsub
    exact clean_nil
  | some node =>
    rw [hfind] at hsub
    cases node with
    | file f => exact nomatch hsub
    | folder entries' =>
      obtain rfl : entries' = sub := Except.ok.inj hsub
      exact h.folders ((find_iff h.distinct.1).mp hfind)

theorem setFile_clean (h : Clean entries) (hnames : ∀ n ∈ name :: rest, '/' ∉ n.toList)
    (hset : setFile sorter data entries name rest = .ok entries') : Clean entries' := by
  induction rest generalizing entries entries' name with
  | nil =>
    obtain ⟨node, hnode, rfl⟩ := setFile_ok.mp hset
    obtain ⟨mode, -, rfl⟩ := setNode_nil_ok.mp hnode
    exact h.store (hnames name List.mem_cons_self) nofun
  | cons next rest ih =>
    obtain ⟨node, hnode, rfl⟩ := setFile_ok.mp hset
    obtain ⟨sub, new, hsub, hnew, rfl⟩ := setNode_cons_ok.mp hnode
    rw [List.forall_mem_cons] at hnames
    refine h.store hnames.1 ?_
    rintro sub' ⟨⟩
    exact ih (h.folderOf hsub) hnames.2 hnew

end Clean
end Kubeast.Source
