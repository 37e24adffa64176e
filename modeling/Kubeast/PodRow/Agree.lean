import Kubeast.PodRow.Row

/-! The page decides over the row what the server decides over the pod. -/
namespace Kubeast.PodRow
open Text

def Ascii (s : String) : Prop := ∀ c ∈ s.toList, c.toNat < 128

instance (s : String) : Decidable (Ascii s) :=
  List.decidableBAll (fun c : Char => c.toNat < 128) s.toList

section Trim
variable {s : String} {l : List Char}

theorem isSpace_ascii {c : Char} (h : c.toNat < 128) : Page.isSpace c = isSpace c := by
  have hne : ∀ n ∈ [0x85, 0xa0, 0x1680, 0x2028, 0x2029, 0x202f, 0x205f, 0x3000, 0xfeff], c.toNat ≠ n := by
    intro n hn hc
    subst hc
    simp at hn
    omega
  simp only [List.forall_mem_cons] at hne
  simp [Page.isSpace, isSpace, hne]

theorem dropWhile_congr {p q : Char → Bool} (h : ∀ c ∈ l, p c = q c) : l.dropWhile p = l.dropWhile q := by
  induction l with
  | nil => rfl
  | cons c l ih =>
    rw [List.forall_mem_cons] at h
    rw [List.dropWhile_cons, List.dropWhile_cons, h.1, ih h.2]

theorem trim_ascii (h : Ascii s) : Page.trim s = trimSpace s := by
  have hspace : ∀ c ∈ s.toList, Page.isSpace c = isSpace c := fun c hc => isSpace_ascii (h c hc)
  have hfirst := dropWhile_congr hspace
  have hlast : ∀ c ∈ (s.toList.dropWhile isSpace).reverse, Page.isSpace c = isSpace c := fun c hc =>
    hspace c ((List.dropWhile_suffix _).subset (List.mem_reverse.mp hc))
  rw [Page.trim, trimSpace, hfirst, dropWhile_congr hlast]

end Trim

section Values
variable {reasons priority : List String} {s : String} {v : Value}

@[simp] theorem truthy_str : Page.truthy (some (.str s)) = decide (s ≠ "") := rfl

theorem orElse_str (s t : String) : Page.orElse (some (.str s)) (.str t) = .str (if s ≠ "" then s else t) := by
  rw [Page.orElse, truthy_str]
  by_cases h : s = "" <;> simp [h]

theorem contains_str : (reasons.map Value.str).contains (.str s) = reasons.contains s := by
  rw [Bool.eq_iff_iff, List.contains_iff_mem, List.contains_iff_mem, List.mem_map]
  constructor
  · rintro ⟨t, ht, h⟩
    rwa [← Value.str.inj h]
  · exact fun h => ⟨s, h, rfl⟩

theorem pickReason_str : Page.pickReason (reasons.map .str) priority = .str (pickReason reasons priority) := by
  unfold Page.pickReason pickReason
  simp only [contains_str]
  cases priority.find? fun p => reasons.contains p with
  | some p => rfl
  | none =>
    cases reasons with
    | nil => rfl
    | cons r reasons =>
      rw [List.map_cons, List.head?_cons, orElse_str]
      by_cases h : r = "" <;> simp [h]

theorem isCompletedReason_str : Page.isCompletedReason (some (.str s)) = isCompletedReason s := by
  rw [Page.isCompletedReason, truthy_str, isCompletedReason]
  by_cases hc : s = "Completed" <;> by_cases hs : s = "Succeeded" <;> simp [hc, hs]

theorem reasonText_str (h : Ascii s) :
    Page.reasonText (some (.str s)) = ((some s).filter fun r => trimSpace r ≠ "").map .str := by
  rw [Page.reasonText, trim_ascii h]
  by_cases htrim : trimSpace s = "" <;> simp [htrim]

end Values

section Rows
variable {statuses : List ContainerStatus} {s : ContainerState} {c : Container}

theorem get_waiting : (containerState s).get "waiting" = s.waiting.map fun w =>
    .map [("reason", .str w.reason), ("message", .str w.message)] := by
  obtain ⟨w, r, t⟩ := s
  cases w <;> cases r <;> cases t <;> rfl

theorem get_running : (containerState s).get "running" = s.running.map fun r =>
    .map [("started_at", .str (iso r.startedAt))] := by
  obtain ⟨w, r, t⟩ := s
  cases w <;> cases r <;> cases t <;> rfl

theorem get_terminated : (containerState s).get "terminated" = s.terminated.map fun t =>
    .map [("exit_code", .num t.exitCode), ("reason", .str t.reason), ("message", .str t.message),
      ("started_at", .str (iso t.startedAt)), ("finished_at", .str (iso t.finishedAt))] := by
  obtain ⟨w, r, t⟩ := s
  cases w <;> cases r <;> cases t <;> rfl

/-- Under distinct names the last status of a name is the first. -/
theorem getLast?_filter_name (hnames : (statuses.map ContainerStatus.name).Nodup) (name : String) :
    (statuses.filter fun cs => cs.name = name).getLast? = byName statuses name := by
  induction statuses with
  | nil => rfl
  | cons cs statuses ih =>
    obtain ⟨hcs, hnames⟩ := List.nodup_cons.mp hnames
    by_cases hname : cs.name = name
    · have hrest : statuses.filter (fun cs => cs.name = name) = [] := by
        rw [List.filter_eq_nil_iff]
        intro cs' hcs' h
        exact hcs (List.mem_map.mpr ⟨cs', hcs', (of_decide_eq_true h).trans hname.symm⟩)
      rw [List.filter_cons_of_pos (by simpa using hname), hrest, byName,
        List.find?_cons_of_pos (by simpa using hname)]
      rfl
    · rw [List.filter_cons_of_neg (by simpa using hname), ih hnames, byName, byName,
        List.find?_cons_of_neg (by simpa using hname)]

theorem prop_some (v : Value) (k : String) : Page.prop (some v) k = v.get k := rfl

theorem state_containerRow (hnames : (statuses.map ContainerStatus.name).Nodup) (c : Container) :
    (containerRow statuses c).get "state" = (byName statuses c.name).map fun cs => containerState cs.state := by
  rw [containerRow, getLast?_filter_name hnames]
  cases byName statuses c.name <;> rfl

theorem ready_containerRow (hnames : (statuses.map ContainerStatus.name).Nodup) (c : Container) :
    (containerRow statuses c).get "ready" = (byName statuses c.name).map fun cs => .bool cs.ready := by
  rw [containerRow, getLast?_filter_name hnames]
  cases byName statuses c.name <;> rfl

theorem state_initContainerRow (c : Container) :
    (initContainerRow statuses c).get "state" = (byName statuses c.name).map fun cs => containerState cs.state := by
  rw [initContainerRow, ← byName]
  cases restartableInit c <;> cases byName statuses c.name <;> rfl

theorem ready_initContainerRow (c : Container) :
    (initContainerRow statuses c).get "ready" = (byName statuses c.name).map fun cs => .bool cs.ready := by
  rw [initContainerRow, ← byName]
  cases restartableInit c <;> cases byName statuses c.name <;> rfl

theorem isSidecar_initContainerRow (c : Container) :
    Page.isSidecar (initContainerRow statuses c) = restartableInit c := by
  rw [Page.isSidecar, prop_some, initContainerRow, ← byName]
  cases hsidecar : restartableInit c with
  | true =>
    rw [show c.restartPolicy = some "Always" from of_decide_eq_true hsidecar]
    rfl
  | false => cases byName statuses c.name <;> rfl

theorem started_initContainerRow (c : Container) (h : restartableInit c = true) :
    Page.truthy ((initContainerRow statuses c).get "started") =
      (byName statuses c.name).any fun cs => cs.started = some true := by
  rw [initContainerRow, ← byName, h]
  cases byName statuses c.name with
  | none => rfl
  | some cs =>
    obtain ⟨name, state, last, ready, count, started⟩ := cs
    cases started with
    | none => rfl
    | some b => cases b <;> rfl

/-- The reasons of a container that a status names. -/
theorem waitingReason_row (hascii : ∀ cs ∈ statuses, ∀ w ∈ cs.state.waiting, Ascii w.reason) {row : Value}
    (name : String) (hrow : row.get "state" = (byName statuses name).map fun cs => containerState cs.state) :
    Page.reasonText (Page.prop (Page.prop (row.get "state") "waiting") "reason") =
      ((byName statuses name).bind fun cs => waitingReason cs.state).map .str := by
  rw [hrow]
  cases hcs : byName statuses name with
  | none => rfl
  | some cs =>
    rw [Option.map_some, prop_some, get_waiting, Option.bind_some, waitingReason]
    cases hw : cs.state.waiting with
    | none => rfl
    | some w => exact reasonText_str (hascii cs (List.mem_of_find?_eq_some hcs) w hw)

theorem terminatedReason_row (hascii : ∀ cs ∈ statuses, ∀ t ∈ cs.state.terminated, Ascii t.reason) {row : Value}
    (name : String) (hrow : row.get "state" = (byName statuses name).map fun cs => containerState cs.state) :
    (Page.reasonText (Page.prop (Page.prop (row.get "state") "terminated") "reason")).filter
        (fun r => !Page.isCompletedReason (some r)) =
      ((byName statuses name).bind fun cs => terminatedReason cs.state).map .str := by
  rw [hrow]
  cases hcs : byName statuses name with
  | none => rfl
  | some cs =>
    rw [Option.map_some, prop_some, get_terminated, Option.bind_some, terminatedReason]
    cases ht : cs.state.terminated with
    | none => rfl
    | some t =>
      have htext := reasonText_str (hascii cs (List.mem_of_find?_eq_some hcs) t ht)
      rw [show Page.prop (Option.map _ (some t)) "reason" = some (.str t.reason) from rfl, htext]
      simp only [Option.map_some, Option.filter_some]
      by_cases htrim : trimSpace t.reason = ""
      · simp [htrim]
      · cases hcompleted : isCompletedReason t.reason <;>
          simp [htrim, hcompleted, isCompletedReason_str, Option.filter_some]

end Rows

section Lists
variable {statuses : List ContainerStatus} {containers : List Container} {row : Container → Value}

/-- Reasons that are ASCII text. -/
structure AsciiReasons (statuses : List ContainerStatus) : Prop where
  waiting : ∀ cs ∈ statuses, ∀ w ∈ cs.state.waiting, Ascii w.reason
  terminated : ∀ cs ∈ statuses, ∀ t ∈ cs.state.terminated, Ascii t.reason

theorem waitingReasons_rows (hascii : AsciiReasons statuses)
    (hrow : ∀ c, (row c).get "state" = (byName statuses c.name).map fun cs => containerState cs.state) :
    Page.waitingReasons (containers.map row) = (reasonsOf containers statuses).1.map .str := by
  rw [Page.waitingReasons, List.filterMap_map, reasonsOf, List.map_filterMap]
  exact List.filterMap_congr fun c _ => waitingReason_row hascii.waiting c.name (hrow c)

theorem terminatedReasons_rows (hascii : AsciiReasons statuses)
    (hrow : ∀ c, (row c).get "state" = (byName statuses c.name).map fun cs => containerState cs.state) :
    Page.terminatedReasons (containers.map row) = (reasonsOf containers statuses).2.map .str := by
  rw [Page.terminatedReasons, List.filterMap_map, List.filter_filterMap, reasonsOf, List.map_filterMap]
  exact List.filterMap_congr fun c _ => terminatedReason_row hascii.terminated c.name (hrow c)

theorem filter_isSidecar :
    (containers.map (initContainerRow statuses)).filter Page.isSidecar =
      (containers.filter restartableInit).map (initContainerRow statuses) := by
  rw [List.filter_map]
  congr 1
  exact List.filter_congr fun c _ => isSidecar_initContainerRow c

theorem filter_not_isSidecar :
    ((containers.map (initContainerRow statuses)).filter fun c => !Page.isSidecar c) =
      (containers.filter fun c => !restartableInit c).map (initContainerRow statuses) := by
  rw [List.filter_map]
  congr 1
  exact List.filter_congr fun c _ => congrArg _ (isSidecar_initContainerRow c)

theorem length_ready
    (hrow : ∀ c, (row c).get "ready" = (byName statuses c.name).map fun cs => .bool cs.ready) :
    ((containers.map row).filter fun c => Page.truthy (Page.prop (some c) "ready")).length =
      (containers.filter (isReady statuses)).length := by
  rw [List.filter_map, List.length_map]
  congr 1
  refine List.filter_congr fun c _ => ?_
  show Page.truthy ((row c).get "ready") = isReady statuses c
  rw [hrow, isReady]
  cases byName statuses c.name <;> rfl

theorem truthy_map {α : Type} (o : Option α) (f : α → List (String × Value)) :
    Page.truthy (o.map fun a => .map (f a)) = o.isSome := by
  cases o <;> rfl

theorem holds_initContainerRow (c : Container) :
    Page.holds (initContainerRow statuses c) = initHolds statuses c := by
  rw [Page.holds, isSidecar_initContainerRow, prop_some, prop_some, state_initContainerRow, initHolds]
  cases hcs : byName statuses c.name with
  | none => cases restartableInit c && Page.truthy ((initContainerRow statuses c).get "started") <;> rfl
  | some cs =>
    have hstarted : (restartableInit c && Page.truthy ((initContainerRow statuses c).get "started")) =
        (restartableInit c && decide (cs.started = some true)) := by
      cases hsidecar : restartableInit c with
      | true => rw [started_initContainerRow c hsidecar, hcs, Option.any_some]
      | false => rfl
    rw [hstarted, Option.any_some, Option.map_some]
    cases restartableInit c && decide (cs.started = some true) with
    | true => rfl
    | false =>
      have hstate : Page.orElse (some (containerState cs.state)) (.map []) = containerState cs.state := rfl
      simp only [hstate, Bool.false_eq_true, if_false]
      rw [get_waiting, get_running, get_terminated, truthy_map, truthy_map, truthy_map]
      cases cs.state.waiting with
      | some w => rfl
      | none =>
        cases cs.state.running with
        | some r => rfl
        | none =>
          cases cs.state.terminated with
          | none => rfl
          | some t =>
            show decide ((t.exitCode : ℚ) ≠ 0) = decide (t.exitCode ≠ 0)
            simp only [ne_eq, Rat.intCast_eq_zero_iff]

end Lists

section Pods
variable {p : Pod}

theorem reasonAndMessage_fst (reason message : String) (statuses : List ContainerStatus) :
    (reasonAndMessage reason message statuses).1 = if reason ≠ "" then reason else waitingFirst statuses := by
  induction statuses with
  | nil => by_cases h : reason = "" <;> simp [reasonAndMessage, waitingFirst, h]
  | cons cs statuses ih =>
    rw [reasonAndMessage, waitingFirst]
    cases cs.state.waiting with
    | none =>
      dsimp only
      split
      · by_cases h : reason = "" <;> simp [h]
      · exact ih
    | some w =>
      dsimp only
      by_cases hw : w.reason = ""
      · rw [if_neg (not_not.mpr hw), if_neg (not_not.mpr hw)]
        split
        · by_cases h : reason = "" <;> simp [h]
        · exact ih
      · rw [if_pos hw, if_pos hw]
        by_cases h : reason = "" <;> simp [h]

theorem get_status_reason (p : Pod) : (info p).get "status_reason" = some (.str (formattedReason p)) := by
  have hreason := reasonAndMessage_fst p.reason p.message p.containerStatuses
  rw [formattedReason, ← hreason]
  rfl

theorem listView_ne (p : Pod) : listView p ≠ "" := by
  have hlast (reason : String) : (if reason = "" then "Unknown" else reason) ≠ "" := by
    by_cases h : reason = "" <;> simp [h]
  rw [listView, listStatus]
  split
  · decide
  · split
    · decide
    · exact hlast _

theorem phase_info (p : Pod) : Page.orElse ((info p).get "phase")
    (Page.orElse ((info p).get "status") (.str "Unknown")) = .str (listPhase p) := by
  have hphase : (info p).get "phase" = some (.str p.phase) := rfl
  have hstatus : (info p).get "status" = some (.str (listView p)) := rfl
  rw [hphase, hstatus, orElse_str, if_pos (listView_ne p), orElse_str]
  rfl

theorem rfc3339_ne (t : ℤ) : AuditChain.rfc3339 t ≠ "" := by
  intro h
  have hlength := congrArg String.length h
  simp [AuditChain.rfc3339] at hlength

theorem deletion_info (h : p.deletionTimestamp ≠ some zeroTime) :
    Page.truthy ((info p).get "deletion_timestamp") = p.deletionTimestamp.isSome := by
  have hget : (info p).get "deletion_timestamp" = p.deletionTimestamp.map fun t => .str (iso t) := by
    rw [info]
    cases p.deletionTimestamp <;> rfl
  rw [hget]
  cases htime : p.deletionTimestamp with
  | none => rfl
  | some t =>
    have ht : t ≠ zeroTime := fun ht => h (by rw [htime, ht])
    rw [Option.map_some, truthy_str, iso, if_neg ht]
    exact decide_eq_true (rfc3339_ne t)

/-- The rows that the reasons of the init containers are taken from. -/
theorem initReasonsFrom_rows (p : Pod) (phase : String) :
    (if Value.str phase = .str "Succeeded" then
        (p.initContainers.map (initContainerRow p.initContainerStatuses)).filter fun c => !Page.isSidecar c
      else p.initContainers.map (initContainerRow p.initContainerStatuses)) =
      (if phase = "Succeeded" then p.initContainers.filter fun c => !restartableInit c
        else p.initContainers).map (initContainerRow p.initContainerStatuses) := by
  by_cases h : phase = "Succeeded"
  · rw [if_pos (congrArg _ h), if_pos h, filter_not_isSidecar]
  · rw [if_neg (fun hphase => h (Value.str.inj hphase)), if_neg h]

theorem statusReason_row (s : String) :
    (let statusReason := if Page.isCompletedReason (some (.str s)) then some .null else some (Value.str s)
      if Page.truthy statusReason then statusReason.toList else []) =
      ([if isCompletedReason s then "" else s].filter fun r => r ≠ "").map .str := by
  rw [isCompletedReason_str]
  cases isCompletedReason s with
  | true => rfl
  | false => by_cases hs : s = "" <;> simp [hs]

theorem ne_of_mem_reasonsOf {containers : List Container} {statuses : List ContainerStatus} {r : String} :
    r ∈ (reasonsOf containers statuses).1 ∨ r ∈ (reasonsOf containers statuses).2 → r ≠ "" := by
  have htrim : trimSpace "" = "" := by decide
  rintro (h | h) rfl
  · obtain ⟨c, -, hc⟩ := List.mem_filterMap.mp h
    obtain ⟨cs, -, hcs⟩ := Option.bind_eq_some_iff.mp hc
    simpa [htrim] using (Option.filter_eq_some_iff.mp hcs).2
  · obtain ⟨c, -, hc⟩ := List.mem_filterMap.mp h
    obtain ⟨cs, -, hcs⟩ := Option.bind_eq_some_iff.mp hc
    simpa [htrim] using (Option.filter_eq_some_iff.mp hcs).2

theorem candidates_rows (s : String) {rest : List String} (hrest : ∀ r ∈ rest, r ≠ "") :
    ((([s].filter fun r => r ≠ "") ++ rest).map Value.str).filter
        (fun r => !(Page.warnPriority.map Value.str).contains r) =
      (([s] ++ rest).filter fun r => r ≠ "" && !podWarnReasons.contains r).map .str := by
  have hself : rest.filter (fun r => r ≠ "") = rest := List.filter_eq_self.mpr (by simpa using hrest)
  have hboth : ([s] ++ rest).filter (fun r => r ≠ "" && !podWarnReasons.contains r) =
      (([s].filter fun r => r ≠ "") ++ rest).filter fun r => !podWarnReasons.contains r := by
    conv_rhs => rw [← hself, ← List.filter_append, List.filter_filter]
    exact List.filter_congr fun r _ => Bool.and_comm _ _
  rw [hboth, List.filter_map]
  congr 1
  refine List.filter_congr fun r _ => ?_
  show (!(podWarnReasons.map Value.str).contains (.str r)) = _
  rw [contains_str]

/-- The reasons of the row, those of the warning list left out. -/
theorem errorReason_rows (p : Pod) (phase : String) (hascii : AsciiReasons p.containerStatuses)
    (hinit : AsciiReasons p.initContainerStatuses) (hnames : (p.containerStatuses.map ContainerStatus.name).Nodup) :
    let containers := p.containers.map (containerRow p.containerStatuses)
    let initContainers := (if phase = "Succeeded" then p.initContainers.filter fun c => !restartableInit c
      else p.initContainers)
    let rows := initContainers.map (initContainerRow p.initContainerStatuses)
    let own := reasonsOf p.containers p.containerStatuses
    let held := reasonsOf initContainers p.initContainerStatuses
    let statusReason := if isCompletedReason (formattedReason p) then "" else formattedReason p
    Page.pickReason (((([statusReason].filter fun r => r ≠ "").map Value.str ++ Page.waitingReasons rows ++
        Page.terminatedReasons rows ++ Page.waitingReasons containers ++ Page.terminatedReasons containers)).filter
          fun r => !(Page.warnPriority.map Value.str).contains r) Page.errorPriority =
      .str (pickReason (([statusReason] ++ held.1 ++ held.2 ++ own.1 ++ own.2).filter
        fun r => r ≠ "" && !podWarnReasons.contains r) podErrorReasons) := by
  intro containers initContainers rows own held statusReason
  have hne : ∀ r ∈ held.1 ++ (held.2 ++ (own.1 ++ own.2)), r ≠ "" := by
    intro r hr
    simp only [List.mem_append] at hr
    rcases hr with hr | hr | hr | hr
    exacts [ne_of_mem_reasonsOf (.inl hr), ne_of_mem_reasonsOf (.inr hr), ne_of_mem_reasonsOf (.inl hr),
      ne_of_mem_reasonsOf (.inr hr)]
  rw [waitingReasons_rows hinit state_initContainerRow, terminatedReasons_rows hinit state_initContainerRow,
    waitingReasons_rows hascii (state_containerRow hnames), terminatedReasons_rows hascii (state_containerRow hnames)]
  have hcandidates := candidates_rows statusReason hne
  simp only [List.map_append, ← List.append_assoc] at hcandidates
  rw [hcandidates]
  exact pickReason_str

theorem level_reason_ite {c c' : Prop} [Decidable c] [Decidable c'] {a b : Page.PodHealth}
    {a' b' : Level × String} (hc : c ↔ c') (ha : (a.level, a.reason) = (a'.1, .str a'.2))
    (hb : (b.level, b.reason) = (b'.1, .str b'.2)) :
    ((if c then a else b).level, (if c then a else b).reason) =
      ((if c' then a' else b').1, .str (if c' then a' else b').2) := by
  by_cases h : c
  · rwa [if_pos h, if_pos (hc.mp h)]
  · rwa [if_neg h, if_neg (hc.not.mp h)]

/-- The card and the node map show one colour and one reason. -/
theorem getPodHealth_info (p : Pod) (hnames : (p.containerStatuses.map ContainerStatus.name).Nodup)
    (hascii : AsciiReasons p.containerStatuses) (hinit : AsciiReasons p.initContainerStatuses)
    (hdeleted : p.deletionTimestamp ≠ some zeroTime) :
    ((Page.getPodHealth (info p)).level, (Page.getPodHealth (info p)).reason) =
      ((podHealth p).1, .str (podHealth p).2) := by
  have hcontainers : Page.array ((info p).get "containers") =
    p.containers.map (containerRow p.containerStatuses) := rfl
  have hinitContainers : Page.array ((info p).get "init_containers") =
    p.initContainers.map (initContainerRow p.initContainerStatuses) := rfl
  have hphase {s t : String} : Value.str s = .str t ↔ s = t := ⟨Value.str.inj, congrArg _⟩
  have hready : ((p.containers.map (containerRow p.containerStatuses) ++
      (p.initContainers.map (initContainerRow p.initContainerStatuses)).filter Page.isSidecar).filter
        fun c => Page.truthy (Page.prop (some c) "ready")).length =
      (p.containers.filter (isReady p.containerStatuses)).length +
        ((p.initContainers.filter restartableInit).filter (isReady p.initContainerStatuses)).length := by
    rw [filter_isSidecar, List.filter_append, List.length_append, length_ready (ready_containerRow hnames),
      length_ready ready_initContainerRow]
  have htotal : (p.containers.map (containerRow p.containerStatuses) ++
      (p.initContainers.map (initContainerRow p.initContainerStatuses)).filter Page.isSidecar).length =
      p.containers.length + (p.initContainers.filter restartableInit).length := by
    rw [filter_isSidecar, List.length_append, List.length_map, List.length_map]
  have hholds : (p.initContainers.map (initContainerRow p.initContainerStatuses)).any Page.holds =
      p.initContainers.any (initHolds p.initContainerStatuses) := by
    rw [List.any_map]
    exact congrArg _ (funext holds_initContainerRow)
  rw [Page.getPodHealth, podHealth]
  dsimp only
  rw [phase_info, deletion_info hdeleted, hcontainers, hinitContainers, get_status_reason, statusReason_row,
    initReasonsFrom_rows, errorReason_rows p _ hascii hinit hnames]
  have hpick (reasons : List String) (other : String) :
      Page.orElse (some (.str (pickReason reasons podWarnReasons))) (.str other) =
        .str (if pickReason reasons podWarnReasons ≠ "" then pickReason reasons podWarnReasons else other) :=
    orElse_str _ _
  refine level_reason_ite Iff.rfl rfl (level_reason_ite ?_ ?_ (level_reason_ite ?_ rfl
    (level_reason_ite hphase rfl (level_reason_ite ?_ ?_ (level_reason_ite ?_ ?_ ?_)))))
  · rw [truthy_str, decide_eq_true_iff, hphase]
  · rw [orElse_str, ite_not]
  · rw [hphase, hphase]
  · rw [hholds]
  · rw [waitingReasons_rows hinit state_initContainerRow, pickReason_str]
    exact congrArg _ (hpick _ _)
  · rw [hready, htotal]
  · rw [waitingReasons_rows hascii (state_containerRow hnames), pickReason_str]
    exact congrArg _ (hpick _ _)
  · rw [waitingReasons_rows hascii (state_containerRow hnames), pickReason_str]
    exact level_reason_ite (by rw [truthy_str, decide_eq_true_iff]; rfl) rfl rfl

/-- A pod whose container keeps crashing beside a sidecar that has started. -/
def crashing : Pod where
  deletionTimestamp := none
  initContainers := [⟨"proxy", some "Always"⟩]
  containers := [⟨"web", none⟩]
  phase := "Running"
  conditions := [⟨"Ready", "False", "ContainersNotReady"⟩]
  reason := ""
  message := ""
  initContainerStatuses :=
    [⟨"proxy", ⟨none, some ⟨1⟩, none⟩, ⟨none, none, none⟩, true, 0, some true⟩]
  containerStatuses :=
    [⟨"web", ⟨some ⟨"CrashLoopBackOff", "back-off"⟩, none, none⟩,
      ⟨none, none, some ⟨1, 0, "Error", "", 2, 3⟩⟩, false, 4, some false⟩]

theorem getPodHealth_crashing :
    ((Page.getPodHealth (info crashing)).level, (Page.getPodHealth (info crashing)).reason) =
      (.error, .str "CrashLoopBackOff") := by
  have hserver : podHealth crashing = (.error, "CrashLoopBackOff") := by decide
  have hascii : AsciiReasons crashing.containerStatuses :=
    ⟨by simpa [crashing] using (by decide : Ascii "CrashLoopBackOff"), by simp [crashing]⟩
  have hinit : AsciiReasons crashing.initContainerStatuses := ⟨by simp [crashing], by simp [crashing]⟩
  have hagree := getPodHealth_info crashing (by decide) hascii hinit (by decide)
  rwa [hserver] at hagree

end Pods
end Kubeast.PodRow
