import Kubeast.Source.Tree

/-! What `setFile` does to what stands at the paths of a tree, and that two files may be set in either
order. -/
namespace Kubeast.Source
open Layout (Above Fits)

section Look
variable {sorter : TreeEntrySorter} {data : Bytes} {entries entries' : List Entry} {name name' next : String}
  {node : Node} {rest path : List String}

/-- What stands at a path from an entry on. -/
def lookNode : Option Node → Layout String File
  | none, _ => none
  | some (.file f), path => if path = [] then some (.file f) else none
  | some (.folder entries), path => look entries path

theorem look_nil (entries : List Entry) : look entries [] = some .folder := by
  cases entries <;> rfl

theorem look_cons : look entries (name :: path) = lookNode (find entries name) path := by
  rw [look]
  cases find entries name with
  | none => rfl
  | some node => cases node <;> rfl

theorem look_nil_ne (entries : List Entry) {f : File} : look entries [] ≠ some (.file f) := by
  rw [look_nil]
  exact nofun

theorem lookNode_folder : lookNode (some (.folder entries)) [] = some .folder := look_nil entries

theorem under_look : Layout.under (look entries) name = lookNode (find entries name) :=
  funext fun _ => look_cons

theorem look_store (h : Distinct entries) (hname : '/' ∉ name.toList) :
    look (sorter.store entries name node) (name' :: path) =
      if name' = name then lookNode (some node) path else look entries (name' :: path) := by
  rw [look_cons, find_store h hname]
  split_ifs
  · rfl
  · exact look_cons.symm

/-- Storing an entry changes what stands below its name as it changes the entry. -/
theorem look_store_eq (h : Distinct entries) (hname : '/' ∉ name.toList) {f : Option (Layout.Entry File) → File}
    (hnode : ∀ path, lookNode (some node) path = Layout.set (lookNode (find entries name)) rest f path) :
    look (sorter.store entries name node) path = Layout.set (look entries) (name :: rest) f path := by
  cases path with
  | nil => rw [look_nil, Layout.set_above Layout.nil_above]
  | cons name' path =>
    rw [look_store h hname]
    split_ifs with heq
    · rw [heq, Layout.set_cons, under_look, hnode]
    · rw [Layout.set_cons_ne heq]

/-- What a file is written as: its mode is kept. -/
def written (data : Bytes) : Option (Layout.Entry File) → File
  | some (.file f) => ⟨f.mode, data⟩
  | _ => ⟨.regular, data⟩

/-- What may be written over. -/
def plain (f : File) : Prop := f.mode.isFile = true

theorem modeOf_ok (data : Bytes) {node : Option Node} {mode : FileMode} (h : modeOf name node = .ok mode) :
    written data (lookNode node []) = ⟨mode, data⟩ ∧ ∀ a path, lookNode node (a :: path) = none := by
  cases node with
  | none =>
    obtain rfl : FileMode.regular = mode := Except.ok.inj h
    exact ⟨rfl, fun _ _ => rfl⟩
  | some node =>
    cases node with
    | folder entries => exact nomatch h
    | file f =>
      rw [modeOf] at h
      split_ifs at h
      obtain rfl : f.mode = mode := Except.ok.inj h
      exact ⟨rfl, fun _ _ => rfl⟩

theorem modeOf_isOk (name : String) {node : Option Node} :
    (∃ mode, modeOf name node = .ok mode) ↔ Fits plain (lookNode node) [] := by
  have hfits : Fits plain (lookNode node) [] ↔ ∀ e, lookNode node [] = some e → ∃ f, e = .file f ∧ plain f :=
    ⟨fun h => h.here, fun h => ⟨fun q hq => absurd hq Layout.not_above_nil, h⟩⟩
  rw [hfits]
  cases node with
  | none => exact iff_of_true ⟨_, rfl⟩ nofun
  | some node =>
    cases node with
    | folder entries =>
      refine iff_of_false (fun ⟨_, h⟩ => nomatch h) fun h => ?_
      obtain ⟨f, hf, -⟩ := h .folder lookNode_folder
      exact nomatch hf
    | file f =>
      rw [modeOf]
      split_ifs with hfile <;> simp [lookNode, plain, hfile]

theorem folderOf_ok {node : Option Node} {sub : List Entry} (h : folderOf name node = .ok sub) :
    (∀ path ≠ [], lookNode node path = look sub path) ∧ ∀ f, lookNode node [] ≠ some (.file f) := by
  cases node with
  | none =>
    obtain rfl : [] = sub := Except.ok.inj h
    refine ⟨fun path hne => ?_, nofun⟩
    cases path with
    | nil => exact absurd rfl hne
    | cons a path => rw [look_cons]; rfl
  | some node =>
    cases node with
    | file f => exact nomatch h
    | folder entries =>
      obtain rfl : entries = sub := Except.ok.inj h
      exact ⟨fun _ _ => rfl, fun _ => look_nil_ne entries⟩

theorem folderOf_isOk (name : String) {node : Option Node} :
    (∃ sub, folderOf name node = .ok sub) ↔ ∀ f, lookNode node [] ≠ some (.file f) := by
  refine ⟨fun ⟨sub, h⟩ => (folderOf_ok h).2, fun h => ?_⟩
  cases node with
  | none => exact ⟨[], rfl⟩
  | some node =>
    cases node with
    | file f => exact absurd rfl (h f)
    | folder entries => exact ⟨entries, rfl⟩

/-- A file that is set stands at its path, folders above it, and everything else stands as before. -/
theorem look_setFile (h : Clean entries) (hnames : ∀ n ∈ name :: rest, '/' ∉ n.toList)
    (hset : setFile sorter data entries name rest = .ok entries') :
    look entries' = Layout.set (look entries) (name :: rest) (written data) := by
  funext path
  induction rest generalizing entries entries' name path with
  | nil =>
    obtain ⟨node, hnode, rfl⟩ := setFile_ok.mp hset
    refine look_store_eq h.distinct (hnames name List.mem_cons_self) fun path => ?_
    obtain ⟨mode, hmode, rfl⟩ := setNode_nil_ok.mp hnode
    obtain ⟨hwritten, hbelow⟩ := modeOf_ok data hmode
    cases path with
    | nil => rw [Layout.set_self, hwritten]; rfl
    | cons a path =>
      rw [Layout.set_of_not (List.cons_ne_nil a path) Layout.not_above_nil, hbelow]
      rfl
  | cons next rest ih =>
    rw [List.forall_mem_cons] at hnames
    obtain ⟨node, hnode, rfl⟩ := setFile_ok.mp hset
    refine look_store_eq h.distinct hnames.1 fun path => ?_
    obtain ⟨sub, new, hsub, hnew, rfl⟩ := setNode_cons_ok.mp hnode
    rw [Layout.set_congr (folderOf_ok hsub).1]
    exact ih (h.folderOf hsub) hnames.2 hnew path

theorem exists_setFile : (∃ entries', setFile sorter data entries name rest = .ok entries') ↔
    ∃ node, setNode sorter data name (find entries name) rest = .ok node := by
  simp [setFile_ok]

/-- A file can be set exactly where one fits. -/
theorem setFile_isOk (h : Clean entries) :
    (∃ entries', setFile sorter data entries name rest = .ok entries') ↔
      Fits plain (look entries) (name :: rest) := by
  induction rest generalizing entries name with
  | nil =>
    rw [exists_setFile, Layout.fits_cons, and_iff_right fun _ => look_nil_ne _, under_look,
      ← modeOf_isOk name]
    simp [setNode_nil_ok]
  | cons next rest ih =>
    have hstep {sub : List Entry} (hsub : folderOf name (find entries name) = .ok sub) :
        Fits plain (lookNode (find entries name)) (next :: rest) ↔ Fits plain (look sub) (next :: rest) :=
      Layout.fits_congr (folderOf_ok hsub).1 (folderOf_ok hsub).2 fun _ => look_nil_ne _
    rw [exists_setFile, Layout.fits_cons, and_iff_right fun _ => look_nil_ne _, under_look]
    constructor
    · rintro ⟨node, hnode⟩
      obtain ⟨sub, new, hsub, hnew, -⟩ := setNode_cons_ok.mp hnode
      exact (hstep hsub).mpr ((ih (h.folderOf hsub)).mp ⟨new, hnew⟩)
    · intro hfits
      obtain ⟨sub, hsub⟩ := (folderOf_isOk name).mpr (hfits.above [] Layout.nil_above)
      obtain ⟨new, hnew⟩ := (ih (h.folderOf hsub)).mpr ((hstep hsub).mp hfits)
      exact ⟨_, setNode_cons_ok.mpr ⟨sub, new, hsub, hnew, rfl⟩⟩

end Look

section Order
variable {sorter : TreeEntrySorter} {data data' : Bytes} {entries first second : List Entry}
  {name name' : String} {node node' : Node} {rest rest' : List String}

/-- Entries of two names are stored in either order, of one name when what they become is. -/
theorem setFile_comm_of_node (h : Distinct entries) (hname : '/' ∉ name.toList) (hname' : '/' ∉ name'.toList)
    (hnode : ∀ old node node', name = name' → find entries name = old →
      setNode sorter data name old rest = .ok node → setNode sorter data' name (some node) rest' = .ok node' →
      ∃ other, setNode sorter data' name old rest' = .ok other ∧
        setNode sorter data name (some other) rest = .ok node')
    (hfirst : setFile sorter data entries name rest = .ok first)
    (hsecond : setFile sorter data' first name' rest' = .ok second) :
    ∃ first', setFile sorter data' entries name' rest' = .ok first' ∧
      setFile sorter data first' name rest = .ok second := by
  obtain ⟨node, hset, rfl⟩ := setFile_ok.mp hfirst
  obtain ⟨node', hset', rfl⟩ := setFile_ok.mp hsecond
  rw [find_store h hname] at hset'
  by_cases heq : name = name'
  · subst heq
    rw [if_pos rfl] at hset'
    obtain ⟨other, hother, hagain⟩ := hnode _ node node' rfl rfl hset hset'
    refine ⟨_, setFile_ok.mpr ⟨other, hother, rfl⟩, setFile_ok.mpr ⟨node', ?_, ?_⟩⟩
    · rwa [find_store h hname, if_pos rfl]
    · rw [store_store h hname, store_store h hname]
  · rw [if_neg (Ne.symm heq)] at hset'
    refine ⟨_, setFile_ok.mpr ⟨node', hset', rfl⟩, setFile_ok.mpr ⟨node, ?_, ?_⟩⟩
    · rwa [find_store h hname', if_neg heq]
    · exact store_comm h hname' hname (Ne.symm heq)

/-- Files at different paths may be set in either order. -/
theorem setFile_comm (h : Clean entries) (hnames : ∀ n ∈ name :: rest, '/' ∉ n.toList)
    (hnames' : ∀ n ∈ name' :: rest', '/' ∉ n.toList) (hne : name :: rest ≠ name' :: rest')
    (hfirst : setFile sorter data entries name rest = .ok first)
    (hsecond : setFile sorter data' first name' rest' = .ok second) :
    ∃ first', setFile sorter data' entries name' rest' = .ok first' ∧
      setFile sorter data first' name rest = .ok second := by
  rw [List.forall_mem_cons] at hnames hnames'
  induction rest generalizing entries first second name name' rest' with
  | nil =>
    refine setFile_comm_of_node h.distinct hnames.1 hnames'.1 ?_ hfirst hsecond
    rintro old node node' rfl - hset hset'
    -- What is a file cannot be gone through, and two files of the name would be one.
    obtain ⟨mode, -, rfl⟩ := setNode_nil_ok.mp hset
    cases rest' with
    | nil => exact absurd rfl hne
    | cons next rest' =>
      obtain ⟨sub, new, hsub, -⟩ := setNode_cons_ok.mp hset'
      exact nomatch hsub
  | cons next rest ih =>
    refine setFile_comm_of_node h.distinct hnames.1 hnames'.1 ?_ hfirst hsecond
    rintro old node node' rfl rfl hset hset'
    obtain ⟨sub, new, hsub, hnew, rfl⟩ := setNode_cons_ok.mp hset
    cases rest' with
    | nil =>
      obtain ⟨mode, hmode, -⟩ := setNode_nil_ok.mp hset'
      exact nomatch hmode
    | cons next' rest' =>
      obtain ⟨sub', new', hsub', hnew', rfl⟩ := setNode_cons_ok.mp hset'
      obtain rfl : new = sub' := Except.ok.inj hsub'
      have hrest : next :: rest ≠ next' :: rest' := fun heq => hne (congrArg _ heq)
      obtain ⟨first', hfirst', hsecond'⟩ := ih (h.folderOf hsub)
        (List.forall_mem_cons.mp hnames.2) (List.forall_mem_cons.mp hnames'.2) hrest hnew hnew'
      exact ⟨.folder first', setNode_cons_ok.mpr ⟨sub, first', hsub, hfirst', rfl⟩,
        setNode_cons_ok.mpr ⟨first', new', rfl, hsecond', rfl⟩⟩

end Order
end Kubeast.Source
