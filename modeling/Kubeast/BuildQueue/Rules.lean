import Kubeast.BuildQueue.Indexes
import Kubeast.Foundation.Greedy
import Kubeast.Foundation.Transition

/-! Filling free places: one greedy pass over the waiting builds. -/
namespace Kubeast.BuildQueue
open Greedy

variable {q : Queue} {w : Build} {s : Settings} {l : List Build} {id : String}

/-- A build that may not start beside those that run: there is no free place, its repository is
at its share, or its branch has a running build. -/
def Blocked (s : Settings) (running : List Build) (w : Build) : Bool :=
  running.length ≥ s.maxRunning || countRepo running w.repo ≥ s.maxPerRepo ||
    (running.map Build.group).contains w.group

section Fill

theorem blocked_iff : Blocked s l w = true ↔ s.maxRunning ≤ l.length ∨
    s.maxPerRepo ≤ countRepo l w.repo ∨ w.group ∈ l.map Build.group := by
  simp [Blocked, or_assoc]

theorem blocked_append (s : Settings) (l r : List Build) (w : Build) (h : Blocked s l w = true) :
    Blocked s (l ++ r) w = true := by
  rw [blocked_iff] at h ⊢
  rcases h with h | h | h
  · refine Or.inl (h.trans ?_)
    simp
  · refine Or.inr (Or.inl (h.trans ?_))
    simp
  · rw [List.map_append]
    exact Or.inr (Or.inr (List.mem_append_left _ h))

/-- The guard of the loop reads the indexes where `Blocked` reads the builds. -/
theorem RunningIndexed.blocked_iff (h : RunningIndexed q) : Blocked q.settings q.running w = true ↔
    q.running.length ≥ q.settings.maxRunning ∨ q.repoCount w.repo ≥ q.settings.maxPerRepo ∨
      (q.runningGroup w.group).isSome = true := by
  rw [BuildQueue.blocked_iff, h.repoCount_eq, h.isSome_runningGroup]

/-- What one pass of `fill` makes of the queue. -/
structure Filled (q q' : Queue) (ws : List Build) : Prop where
  settings : q'.settings = q.settings
  running : q'.running = q.running ++ taken (Blocked q.settings) q.running ws
  indexed : RunningIndexed q'
  waitingGroup : ∀ g, q'.waitingGroup g =
    if g ∈ (taken (Blocked q.settings) q.running ws).map Build.group then none else q.waitingGroup g

theorem fillFrom_spec (h : RunningIndexed q) {ws : List Build}
    (hids : ((q.running ++ ws).map Build.id).Nodup) :
    Filled q (q.fillFrom ws).1 ws ∧
      (q.fillFrom ws).2 = (kept (Blocked q.settings) q.running ws,
        taken (Blocked q.settings) q.running ws) := by
  induction ws generalizing q with
  | nil => exact ⟨⟨rfl, by simp [Queue.fillFrom], h, by simp [Queue.fillFrom]⟩, rfl⟩
  | cons w ws ih =>
    have hw : w.id ∉ q.running.map Build.id := by
      rw [List.map_append, List.map_cons] at hids
      exact fun hmem => List.disjoint_of_nodup_append hids hmem (by simp)
    by_cases hblocked : Blocked q.settings q.running w = true
    · have hrest : ((q.running ++ ws).map Build.id).Nodup :=
        hids.sublist (((List.sublist_cons_self w ws).append_left _).map _)
      obtain ⟨hfilled, hlists⟩ := ih h hrest
      unfold Queue.fillFrom
      dsimp only
      rw [if_pos (h.blocked_iff.mp hblocked), hlists, kept_cons_of_blocked hblocked]
      refine ⟨⟨hfilled.settings, ?_, hfilled.indexed, ?_⟩, ?_⟩
      · rw [taken_cons_of_blocked hblocked]
        exact hfilled.running
      · rw [taken_cons_of_blocked hblocked]
        exact hfilled.waitingGroup
      · rw [taken_cons_of_blocked hblocked]
    · have hgroup : w.group ∉ q.running.map Build.group := fun hmem =>
        hblocked (BuildQueue.blocked_iff.mpr (Or.inr (Or.inr hmem)))
      have hrun : RunningIndexed ((q.run w).leaveWaiting w.group) := by
        have hrun := h.run hw hgroup
        exact ⟨hrun.ids, hrun.groups, hrun.runningGroup, hrun.perRepo⟩
      have hrunning : ((q.run w).leaveWaiting w.group).running = q.running ++ [w] := running_run hw
      have hrest : ((((q.run w).leaveWaiting w.group).running ++ ws).map Build.id).Nodup := by
        rw [hrunning, List.append_assoc]
        exact hids
      obtain ⟨hfilled, hlists⟩ := ih hrun hrest
      rw [hrunning] at hlists
      unfold Queue.fillFrom
      dsimp only
      rw [if_neg (mt h.blocked_iff.mpr hblocked), hlists, kept_cons_of_free hblocked,
        taken_cons_of_free hblocked]
      refine ⟨⟨hfilled.settings, ?_, hfilled.indexed, fun g => ?_⟩, rfl⟩
      · rw [hfilled.running, hrunning, List.append_assoc, taken_cons_of_free hblocked]
        rfl
      · rw [hfilled.waitingGroup, hrunning, taken_cons_of_free hblocked, List.map_cons]
        show (if g ∈ (taken (Blocked q.settings) (q.running ++ [w]) ws).map Build.group then none
          else Function.update q.waitingGroup w.group none g) = _
        rw [Function.update_apply]
        by_cases hg : g = w.group
        · simp [hg]
        · simp [hg]

/-- The builds that `fill` starts, and those it leaves waiting. -/
def Queue.started (q : Queue) : List Build := taken (Blocked q.settings) q.running q.waiting

def Queue.left (q : Queue) : List Build := kept (Blocked q.settings) q.running q.waiting

theorem Indexed.mem_left_iff (h : Indexed q) (hw : w ∈ q.waiting) :
    w ∈ q.left ↔ w.group ∉ q.started.map Build.group := by
  have hperm := perm_pass (Blocked q.settings) q.running q.waiting
  have hgroups : ((q.left ++ q.started).map Build.group).Nodup :=
    (hperm.map Build.group).nodup_iff.mpr h.waitingGroups
  rw [List.map_append] at hgroups
  constructor
  · intro hleft hstarted
    exact List.disjoint_of_nodup_append hgroups (List.mem_map_of_mem hleft) hstarted
  · intro hnot
    rcases List.mem_append.mp (hperm.mem_iff.mpr hw) with hleft | hstarted
    · exact hleft
    · exact absurd (List.mem_map_of_mem hstarted) hnot

/-- `fill` is one greedy pass over the waiting builds, and keeps the indexes. -/
theorem fill_spec (h : Indexed q) : Indexed q.fill.1 ∧ q.fill.1.settings = q.settings ∧
    q.fill.1.running = q.running ++ q.started ∧ q.fill.1.waiting = q.left ∧
    q.fill.2 = q.started := by
  unfold Queue.fill
  split
  · next hfull =>
    have hall : ∀ w ∈ q.waiting, Blocked q.settings q.running w = true := by
      intro w hw
      rcases hfull with hfull | hnil
      · exact blocked_iff.mpr (Or.inl hfull)
      · rw [hnil] at hw
        cases hw
    obtain ⟨hkept, htaken⟩ := pass_of_blocked hall
    have hstarted : q.started = [] := htaken
    have hleft : q.left = q.waiting := hkept
    rw [hstarted, hleft, List.append_nil]
    exact ⟨h, rfl, rfl, rfl, rfl⟩
  · obtain ⟨hfilled, hlists⟩ := fillFrom_spec h.toRunningIndexed h.allIds
    dsimp only
    rw [hlists]
    have hperm := perm_pass (Blocked q.settings) q.running q.waiting
    have hrunning : (q.fillFrom q.waiting).1.running = q.running ++ q.started := hfilled.running
    have hwaiting (g : String) : (q.fillFrom q.waiting).1.waitingGroup g =
        if g ∈ q.started.map Build.group then none else q.waitingGroup g := hfilled.waitingGroup g
    refine ⟨?_, hfilled.settings, hrunning, rfl, rfl⟩
    have hindexed := hfilled.indexed
    constructor
    · exact ⟨hindexed.ids, hindexed.groups, hindexed.runningGroup, hindexed.perRepo⟩
    · show (((q.fillFrom q.waiting).1.running ++ q.left).map Build.id).Nodup
      rw [hrunning, List.append_assoc]
      have hall : (q.running ++ (q.started ++ q.left)).Perm (q.running ++ q.waiting) :=
        (List.perm_append_comm.trans hperm).append_left _
      exact (hall.map Build.id).nodup_iff.mpr h.allIds
    · exact h.waitingGroups.sublist ((kept_sublist _ _).map _)
    · intro g id
      show (q.fillFrom q.waiting).1.waitingGroup g = some id ↔ ∃ b ∈ q.left, b.group = g ∧ b.id = id
      rw [hwaiting]
      split
      · next hstarted =>
        constructor
        · intro hnone
          cases hnone
        · rintro ⟨b, hb, rfl, -⟩
          have hmem : b ∈ q.waiting := (kept_sublist _ _).subset hb
          exact absurd hstarted ((h.mem_left_iff hmem).mp hb)
      · next hnot =>
        rw [h.waitingGroup]
        constructor
        · rintro ⟨b, hb, rfl, hid⟩
          exact ⟨b, (h.mem_left_iff hb).mpr hnot, rfl, hid⟩
        · rintro ⟨b, hb, hrest⟩
          exact ⟨b, (kept_sublist _ _).subset hb, hrest⟩

/-- Nothing waits that could run. -/
def Settled (q : Queue) : Prop := ∀ w ∈ q.waiting, Blocked q.settings q.running w = true

theorem settled_fill (h : Indexed q) : Settled q.fill.1 := by
  obtain ⟨-, hsettings, hrunning, hwaiting, -⟩ := fill_spec h
  intro w hw
  rw [hwaiting] at hw
  rw [hsettings, hrunning]
  exact blocked_of_kept (blocked_append q.settings) hw

/-- The caps on the builds that run. -/
def Capped (s : Settings) (running : List Build) : Prop :=
  running.length ≤ s.maxRunning ∧ ∀ repo, countRepo running repo ≤ s.maxPerRepo

theorem capped_append (h : Capped s l) (hw : Blocked s l w = false) : Capped s (l ++ [w]) := by
  have hfree : ¬ Blocked s l w = true := by simp [hw]
  rw [blocked_iff, not_or, not_or] at hfree
  constructor
  · rw [List.length_append, List.length_singleton]
    push_cast
    omega
  · intro repo
    rw [countRepo_append, countRepo_singleton]
    split
    · next hrepo =>
      rw [← hrepo]
      push_cast
      omega
    · exact h.2 repo

theorem capped_fill (h : Indexed q) (hcapped : Capped q.settings q.running) :
    Capped q.fill.1.settings q.fill.1.running := by
  obtain ⟨-, hsettings, hrunning, -⟩ := fill_spec h
  rw [hsettings, hrunning]
  exact taken_invariant hcapped fun l w hl hw => capped_append hl hw

end Fill

end Kubeast.BuildQueue

/-! The rules of the build queue: its caps, one running and one waiting build a branch, the
indexes, and that nothing waits that could run. -/
namespace Kubeast.BuildQueue
open Greedy Transition

variable {q : Queue} {b w : Build} {l : List Build} {g id : String}

section Operations

/-- The queue `p` that a call leaves to `fill`: of the running builds `gone` have left, and of
the builds in line `out` have. -/
structure Prepared (q p : Queue) (line gone out : List Build) : Prop where
  indexed : Indexed p
  settings : p.settings = q.settings
  running : (gone ++ p.running).Perm q.running
  runningSublist : p.running.Sublist q.running
  waiting : p.waiting = line.filter fun w => !out.contains w
  line : (out ++ p.waiting).Perm line

/-- A build that joins the line, the waiting builds `out` having left it. -/
theorem prepared_join {p : Queue} {out : List Build} (h : Indexed p)
    (hid : b.id ∉ (p.running ++ p.waiting).map Build.id)
    (hgroup : b.group ∉ p.waiting.map Build.group) (hsettings : p.settings = q.settings)
    (hrunning : p.running = q.running) (hout : b ∉ out)
    (hwaiting : p.waiting = q.waiting.filter fun w => !out.contains w)
    (hline : (out ++ p.waiting).Perm q.waiting) :
    Prepared q ((p.join b).makeWay b.group).1 (q.waiting ++ [b])
      ((p.join b).makeWay b.group).2 out := by
  obtain ⟨hindexed, hset, hwait, hsublist, hperm⟩ := makeWay_spec (h.join hid hgroup) b.group
  have hjoined : (p.join b).waiting = p.waiting ++ [b] := rfl
  refine ⟨hindexed, hset.trans hsettings, ?_, ?_, ?_, ?_⟩
  · rw [← hrunning]
    exact hperm
  · rw [← hrunning]
    exact hsublist
  · rw [hwait, hjoined, hwaiting, List.filter_append, List.filter_singleton]
    simp [hout]
  · rw [hwait, hjoined, ← List.append_assoc]
    exact hline.append_right [b]

/-- A submitted build is refused and nothing changes, or it joins the line and places are
filled. -/
theorem submit_spec (h : Indexed q) (hid : b.id ∉ (q.running ++ q.waiting).map Build.id) :
    (∃ e, q.submit b = (q, .error e)) ∨
      ∃ p d, q.submit b = (p.fill.1, .ok d) ∧ d.start = p.fill.2 ∧
        Prepared q p (q.waiting ++ [b]) d.cancel d.replaced ∧
        ((q.waiting.length : ℤ) ≤ q.settings.maxWaiting →
          (p.waiting.length : ℤ) ≤ q.settings.maxWaiting) := by
  unfold Queue.submit
  split
  · exact Or.inl ⟨_, rfl⟩
  · split
    · next i w hw =>
      obtain ⟨hi, hgroup⟩ := waitingOf_eq_some h hw
      split
      · exact Or.inl ⟨_, rfl⟩
      · have hperm := perm_removeAt hi
        have hmem : w ∈ q.waiting := List.mem_of_getElem? hi
        have hbw : b ∉ [w] := by
          rw [List.mem_singleton]
          rintro rfl
          exact hid (List.mem_map_of_mem (List.mem_append_right _ hmem))
        have hprepared : Prepared q (((q.removeAt i w).join b).makeWay b.group).1 (q.waiting ++ [b])
            (((q.removeAt i w).join b).makeWay b.group).2 [w] := by
          refine prepared_join (h.removeAt hi) ?_ ?_ rfl rfl hbw ?_ hperm
          · intro hmem
            apply hid
            exact ((((List.eraseIdx_sublist _ _).append_left _).map _).subset hmem)
          · have hgroups : ((w :: (q.removeAt i w).waiting).map Build.group).Nodup :=
              (hperm.map Build.group).nodup_iff.mpr h.waitingGroups
            rw [← hgroup]
            exact (List.nodup_cons.mp hgroups).1
          · rw [h.waiting_removeAt hi]
            apply List.filter_congr
            intro x _
            rw [List.contains_cons, List.contains_nil, Bool.or_false]
            rfl
        refine Or.inr ⟨_, _, rfl, rfl, hprepared, fun hcap => ?_⟩
        have hlength := hprepared.line.length_eq
        simp at hlength
        omega
    · next hnone =>
      have hgroup := waitingOf_eq_none h hnone
      split
      · exact Or.inl ⟨_, rfl⟩
      · next hspace =>
        have hprepared : Prepared q ((q.join b).makeWay b.group).1 (q.waiting ++ [b])
            ((q.join b).makeWay b.group).2 [] := by
          refine prepared_join h hid hgroup rfl rfl (by simp) ?_ (List.Perm.refl _)
          simp
        refine Or.inr ⟨_, _, rfl, rfl, hprepared, fun _ => ?_⟩
        have hlength := hprepared.line.length_eq
        simp at hlength
        omega

theorem finish_spec (h : Indexed q) (id : String) :
    ∃ p, q.finish id = (p.fill.1, ⟨p.fill.2, [], []⟩) ∧
      Prepared q p q.waiting (q.running.filter fun r => r.id == id) [] := by
  have hkept : q.waiting = q.waiting.filter fun w => !([] : List Build).contains w := by simp
  unfold Queue.finish
  cases hfind : q.running.find? fun b => b.id == id with
  | none =>
    have hnone : q.running.filter (fun r => r.id == id) = [] := by
      rw [List.filter_eq_nil_iff]
      exact fun r hr => List.find?_eq_none.mp hfind r hr
    rw [hnone]
    exact ⟨q, rfl, h, rfl, List.Perm.refl _, List.Sublist.refl _, hkept, List.Perm.refl _⟩
  | some r =>
    have hr := List.mem_of_find?_eq_some hfind
    obtain rfl : r.id = id := by simpa using List.find?_some hfind
    refine ⟨q.release r.id, rfl, h.release hr, rfl, ?_, List.filter_sublist, hkept, List.Perm.refl _⟩
    have hsplit := List.filter_append_perm (fun b : Build => b.id == r.id) q.running
    exact hsplit

theorem remove_spec (h : Indexed q) (id : String) :
    ((q.remove id).1 = q ∧ (q.remove id).2 = false) ∨
      ∃ w ∈ q.waiting, w.id = id ∧ (q.remove id).2 = true ∧ Indexed (q.remove id).1 ∧
        (q.remove id).1.settings = q.settings ∧ (q.remove id).1.running = q.running ∧
        (w :: (q.remove id).1.waiting).Perm q.waiting ∧
        (q.remove id).1.waiting.Sublist q.waiting := by
  unfold Queue.remove
  cases hi : q.indexOf id with
  | none => exact Or.inl ⟨rfl, rfl⟩
  | some i =>
    obtain ⟨w, hw, hid⟩ := indexOf_eq_some hi
    dsimp only
    rw [hw]
    exact Or.inr ⟨w, List.mem_of_getElem? hw, hid, rfl, h.removeAt hw, rfl, rfl, perm_removeAt hw,
      List.eraseIdx_sublist _ _⟩

end Operations

section Restore

theorem restoreOne_spec {acc : Queue × List Build} (h : Indexed acc.1) (hwaiting : acc.1.waiting = [])
    (hid : b.id ∉ acc.1.running.map Build.id) :
    Indexed (Queue.restoreOne acc b).1 ∧ (Queue.restoreOne acc b).1.waiting = [] ∧
      (Queue.restoreOne acc b).1.settings = acc.1.settings ∧
      ((Queue.restoreOne acc b).2 ++ (Queue.restoreOne acc b).1.running).Perm
        (acc.2 ++ (acc.1.running ++ [b])) := by
  unfold Queue.restoreOne
  cases hgroup : acc.1.runningGroup b.group with
  | none =>
    have hnone : b.group ∉ acc.1.running.map Build.group := by
      rw [← h.isSome_runningGroup, hgroup]
      simp
    have hall : b.id ∉ (acc.1.running ++ acc.1.waiting).map Build.id := by
      rwa [hwaiting, List.append_nil]
    refine ⟨h.run hall hnone, hwaiting, rfl, ?_⟩
    dsimp only
    rw [running_run hid]
  | some id =>
    obtain ⟨r, hr, hrg, rfl⟩ := (h.runningGroup b.group id).mp hgroup
    dsimp only
    rw [h.runningBuild_eq hr]
    have hreleased := h.release hr
    have hperm := h.perm_release hr
    have hid' : b.id ∉ (acc.1.release r.id).running.map Build.id := by
      intro hmem
      exact hid ((List.filter_sublist.map _).subset hmem)
    have hall : b.id ∉ ((acc.1.release r.id).running ++ (acc.1.release r.id).waiting).map Build.id := by
      show b.id ∉ ((acc.1.release r.id).running ++ acc.1.waiting).map Build.id
      rwa [hwaiting, List.append_nil]
    have hnone : b.group ∉ (acc.1.release r.id).running.map Build.group := by
      have hgroups : ((r :: (acc.1.release r.id).running).map Build.group).Nodup :=
        (hperm.map Build.group).nodup_iff.mpr h.groups
      rw [← hrg]
      exact (List.nodup_cons.mp hgroups).1
    refine ⟨hreleased.run hall hnone, hwaiting, rfl, ?_⟩
    rw [running_run hid', List.append_assoc, ← List.append_assoc [r]]
    exact (hperm.append_right [b]).append_left acc.2

theorem restore_loop (bs : List Build) (acc : Queue × List Build) (h : Indexed acc.1)
    (hwaiting : acc.1.waiting = [])
    (hids : ((acc.2 ++ (acc.1.running ++ bs)).map Build.id).Nodup) :
    Indexed (bs.foldl Queue.restoreOne acc).1 ∧ (bs.foldl Queue.restoreOne acc).1.waiting = [] ∧
      (bs.foldl Queue.restoreOne acc).1.settings = acc.1.settings ∧
      ((bs.foldl Queue.restoreOne acc).2 ++ (bs.foldl Queue.restoreOne acc).1.running).Perm
        (acc.2 ++ (acc.1.running ++ bs)) := by
  induction bs generalizing acc with
  | nil => exact ⟨h, hwaiting, rfl, by simp⟩
  | cons b bs ih =>
    have hid : b.id ∉ acc.1.running.map Build.id := by
      rw [List.map_append, List.map_append, List.map_cons] at hids
      intro hmem
      exact List.disjoint_of_nodup_append hids.of_append_right hmem (by simp)
    obtain ⟨hindexed, hwait, hsettings, hperm⟩ := restoreOne_spec h hwaiting hid
    have hall : ((Queue.restoreOne acc b).2 ++ ((Queue.restoreOne acc b).1.running ++ bs)).Perm
        (acc.2 ++ (acc.1.running ++ b :: bs)) := by
      have hrest := hperm.append_right bs
      rwa [List.append_assoc, List.append_assoc, List.append_assoc] at hrest
    obtain ⟨hindexed', hwait', hsettings', hperm'⟩ :=
      ih _ hindexed hwait ((hall.map Build.id).nodup_iff.mpr hids)
    exact ⟨hindexed', hwait', hsettings'.trans hsettings, hperm'.trans hall⟩

theorem checkRestored_ok {seen : List String} {bs : List Build}
    (h : Queue.checkRestored seen bs = .ok ()) :
    (bs.map Build.id).Nodup ∧ ∀ b ∈ bs, b.id ∉ seen := by
  induction bs generalizing seen with
  | nil => exact ⟨List.nodup_nil, fun b hb => by cases hb⟩
  | cons b bs ih =>
    unfold Queue.checkRestored at h
    split_ifs at h with hempty hseen
    obtain ⟨hnodup, hnot⟩ := ih h
    rw [List.map_cons, List.nodup_cons, List.forall_mem_cons]
    refine ⟨⟨?_, hnodup⟩, hseen, fun x hx hmem => hnot x hx (List.mem_cons_of_mem _ hmem)⟩
    intro hmem
    obtain ⟨x, hx, hid⟩ := List.mem_map.mp hmem
    exact hnot x hx (by rw [hid]; exact List.mem_cons_self)

/-- A restore of a queue in use or of a list that does not hold is refused; otherwise every
build of the list runs or is cancelled. -/
theorem restore_spec (h : Indexed q) (bs : List Build) :
    (∃ e, q.restore bs = (q, .error e)) ∨
      ∃ p d, q.restore bs = (p, .ok d) ∧ q.running = [] ∧ q.waiting = [] ∧ d.start = [] ∧
        d.replaced = [] ∧ Indexed p ∧ p.settings = q.settings ∧ p.waiting = [] ∧
        (bs.map Build.id).Nodup ∧ (d.cancel ++ p.running).Perm bs := by
  unfold Queue.restore
  split
  · exact Or.inl ⟨_, rfl⟩
  · next hempty =>
    rw [not_or, not_lt, not_lt, Nat.le_zero, Nat.le_zero, List.length_eq_zero_iff,
      List.length_eq_zero_iff] at hempty
    obtain ⟨hrunning, hwaiting⟩ := hempty
    split
    · exact Or.inl ⟨_, rfl⟩
    · next hok =>
      have hsort := List.perm_insertionSort (fun a b => (!Queue.less b a) = true) bs
      have hnodup := (checkRestored_ok hok).1
      have hids : (([] ++ (q.running ++ bs.insertionSort fun a b => !Queue.less b a)).map
          Build.id).Nodup := by
        rw [hrunning, List.nil_append, List.nil_append]
        exact (hsort.map Build.id).nodup_iff.mpr hnodup
      obtain ⟨hindexed, hwait, hsettings, hperm⟩ := restore_loop _ (q, []) h hwaiting hids
      refine Or.inr ⟨_, _, rfl, hrunning, hwaiting, rfl, rfl, hindexed, hsettings, hwait, hnodup, ?_⟩
      rw [hrunning] at hperm
      exact hperm.trans hsort

end Restore

/-- A submitted build has an id that is not in the queue; a restore comes first or not at all. -/
def Action.Fresh (q : Queue) : Action → Prop
  | .restore _ => False
  | .submit b => b.id ∉ (q.running ++ q.waiting).map Build.id
  | .finish _ | .remove _ => True

instance (q : Queue) : (a : Action) → Decidable (a.Fresh q)
  | .restore _ => isFalse fun h => h
  | .submit b => inferInstanceAs (Decidable (b.id ∉ (q.running ++ q.waiting).map Build.id))
  | .finish _ | .remove _ => isTrue trivial

/-- The rules that hold whatever runs: the indexes say what the queue holds, a branch has one
running and one waiting build at most, and nothing waits that could run. -/
structure Rules (s : Settings) (q : Queue) : Prop where
  settings : q.settings = s
  indexed : Indexed q
  waiting : (q.waiting.length : ℤ) ≤ s.maxWaiting
  settled : Settled q

/-- At the moment a build starts, a place is free and its repository is below its share. -/
def StartsWithinCaps (s : Settings) (q : Queue) (a : Action) : Prop :=
  ∃ base, (q.act a).1.running = base ++ (q.act a).2.start ∧
    ∀ pre b post, (q.act a).2.start = pre ++ b :: post →
      (base ++ pre).length < s.maxRunning ∧ countRepo (base ++ pre) b.repo < s.maxPerRepo

section Steps
variable {s : Settings} {p : Queue} {line gone out : List Build} {a : Action}

theorem rules_fill (h : Prepared q p line gone out) (hsettings : q.settings = s)
    (hwaiting : (p.waiting.length : ℤ) ≤ s.maxWaiting) : Rules s p.fill.1 := by
  obtain ⟨hindexed, hset, -, hwait, -⟩ := fill_spec h.indexed
  refine ⟨hset.trans (h.settings.trans hsettings), hindexed, ?_, settled_fill h.indexed⟩
  have hlength : p.fill.1.waiting.length ≤ p.waiting.length := by
    rw [hwait]
    exact (kept_sublist _ _).length_le
  omega

theorem Capped.of_sublist (h : Capped s q.running) (hsub : p.running.Sublist q.running) :
    Capped s p.running := by
  obtain ⟨hrunning, hrepo⟩ := h
  constructor
  · have hlength := hsub.length_le
    omega
  · intro repo
    have hcount : countRepo p.running repo ≤ countRepo q.running repo := hsub.countP_le
    have hshare := hrepo repo
    omega

theorem capped_prepared (h : Prepared q p line gone out) (hsettings : q.settings = s)
    (hcapped : Capped s q.running) : Capped s p.fill.1.running := by
  have hp : p.settings = s := h.settings.trans hsettings
  have hfill := capped_fill h.indexed (hp ▸ hcapped.of_sublist h.runningSublist)
  rwa [(fill_spec h.indexed).2.1, hp] at hfill

theorem starts_prepared (h : Prepared q p line gone out) (hsettings : q.settings = s)
    (hrunning : (q.act a).1 = p.fill.1) (hstart : (q.act a).2.start = p.fill.2) :
    StartsWithinCaps s q a := by
  obtain ⟨-, -, hrun, -, hstarted⟩ := fill_spec h.indexed
  refine ⟨p.running, by rw [hrunning, hstart, hrun, hstarted], fun pre b post hsplit => ?_⟩
  rw [hstart, hstarted] at hsplit
  have hfree := free_of_taken hsplit
  rw [h.settings, hsettings] at hfree
  have hnot : ¬ Blocked s (p.running ++ pre) b = true := by simp [hfree]
  rw [blocked_iff, not_or, not_or, not_le, not_le] at hnot
  exact ⟨hnot.1, hnot.2.1⟩

theorem starts_nothing (h : (q.act a).2.start = []) : StartsWithinCaps s q a := by
  refine ⟨(q.act a).1.running, by rw [h, List.append_nil], fun pre b post hsplit => ?_⟩
  rw [h] at hsplit
  simp at hsplit

/-- What one call preserves, and what it keeps to when it starts builds. -/
theorem rules_step (h : Rules s q) (hfresh : a.Fresh q) : Rules s (step q a) ∧
    (Capped s q.running → Capped s (step q a).running) ∧ StartsWithinCaps s q a := by
  unfold step
  cases a with
  | restore builds => exact hfresh.elim
  | submit b =>
    rcases submit_spec h.indexed hfresh with ⟨e, hrefused⟩ | ⟨p, d, hok, hstart, hprepared, hcap⟩
    · have hq : (q.act (.submit b)).1 = q := by simp [Queue.act, hrefused]
      have hd : (q.act (.submit b)).2.start = [] := by
        simp [Queue.act, hrefused, Except.toOption, Decision.none]
      rw [hq]
      exact ⟨h, fun hcapped => hcapped, starts_nothing hd⟩
    · have hq : (q.act (.submit b)).1 = p.fill.1 := by simp [Queue.act, hok]
      have hd : (q.act (.submit b)).2.start = p.fill.2 := by
        simp [Queue.act, hok, Except.toOption, hstart]
      rw [h.settings] at hcap
      refine ⟨?_, ?_, starts_prepared hprepared h.settings hq hd⟩
      · rw [hq]
        exact rules_fill hprepared h.settings (hcap h.waiting)
      · rw [hq]
        exact capped_prepared hprepared h.settings
  | finish id =>
    obtain ⟨p, hp, hprepared⟩ := finish_spec h.indexed id
    have hq : (q.act (.finish id)).1 = p.fill.1 := by simp [Queue.act, hp]
    have hd : (q.act (.finish id)).2.start = p.fill.2 := by simp [Queue.act, hp]
    refine ⟨?_, ?_, starts_prepared hprepared h.settings hq hd⟩
    · rw [hq]
      apply rules_fill hprepared h.settings
      have hlength := hprepared.line.length_eq
      have hwaiting := h.waiting
      simp at hlength
      omega
    · rw [hq]
      exact capped_prepared hprepared h.settings
  | remove id =>
    refine ⟨?_, ?_, starts_nothing rfl⟩
    · show Rules s (q.remove id).1
      rcases remove_spec h.indexed id with ⟨hq, -⟩ | ⟨w, -, -, -, hindexed, hset, hrun, hperm, -⟩
      · rw [hq]
        exact h
      · refine ⟨hset.trans h.settings, hindexed, ?_, fun x hx => ?_⟩
        · have hlength := hperm.length_eq
          have hwaiting := h.waiting
          simp at hlength
          omega
        · rw [hset, hrun]
          exact h.settled x (hperm.subset (List.mem_cons_of_mem w hx))
    · show Capped s q.running → Capped s (q.remove id).1.running
      rcases remove_spec h.indexed id with ⟨hq, -⟩ | ⟨w, -, -, -, -, -, hrun, -⟩
      · rw [hq]
        exact fun hcapped => hcapped
      · rw [hrun]
        exact fun hcapped => hcapped

end Steps

section Runs
variable {s : Settings} {as : List Action}

theorem newQueue_rules (h : newQueue s = .ok q) :
    Rules s.withDefaults q ∧ Capped s.withDefaults q.running := by
  unfold newQueue at h
  cases hvalid : s.validate with
  | error e => simp [hvalid, Except.map] at h
  | ok u =>
    rw [hvalid] at h
    obtain rfl := Except.ok.inj h
    have hsigns : 0 ≤ s.maxRunning ∧ 0 ≤ s.maxPerRepo ∧ 0 ≤ s.maxWaiting := by
      unfold Settings.validate at hvalid
      split_ifs at hvalid
      omega
    have hcaps : 0 ≤ s.withDefaults.maxRunning ∧ 0 ≤ s.withDefaults.maxPerRepo ∧
        0 ≤ s.withDefaults.maxWaiting := by
      simp only [Settings.withDefaults, defaultMaxRunning, defaultMaxPerRepo, defaultMaxWaiting]
      split_ifs <;> omega
    have hindexed : RunningIndexed ⟨s.withDefaults, [], fun _ => none, fun _ => none, [],
        fun _ => none⟩ := by
      constructor <;> simp [countRepo]
    refine ⟨⟨rfl, ⟨hindexed, ?_, ?_, ?_⟩, ?_, ?_⟩, ?_, ?_⟩
    · simp
    · simp
    · simp
    · simpa using hcaps.2.2
    · intro w hw
      cases hw
    · simpa using hcaps.1
    · intro repo
      simpa [countRepo] using hcaps.2.1

theorem newQueue_empty (h : newQueue s = .ok q) : q.running = [] ∧ q.waiting = [] := by
  unfold newQueue at h
  cases hvalid : s.validate with
  | error e => simp [hvalid, Except.map] at h
  | ok u =>
    rw [hvalid] at h
    obtain rfl := Except.ok.inj h
    exact ⟨rfl, rfl⟩

theorem rules_restore {p : Queue} {d : Decision} {builds : List Build} (h : Rules s q)
    (hok : q.restore builds = (p, .ok d)) : Rules s p := by
  rcases restore_spec h.indexed builds with ⟨e, herror⟩ | ⟨p', d', hok', hspec⟩
  · rw [herror] at hok
    cases hok
  · obtain ⟨-, hwaiting, -, -, hindexed, hsettings, hnone, -⟩ := hspec
    obtain ⟨rfl, -⟩ := Prod.mk.inj (hok.symm.trans hok')
    refine ⟨hsettings.trans h.settings, hindexed, ?_, ?_⟩
    · have hcap := h.waiting
      rw [hwaiting] at hcap
      rwa [hnone]
    · intro w hw
      rw [hnone] at hw
      cases hw

theorem rules_exec (h : Rules s q) (hfresh : Along step (fun q a => a.Fresh q) q as) :
    Rules s (exec step q as) :=
  exec_invariant (fun _ _ hrules hf => (rules_step hrules hf).1) h hfresh

theorem capped_exec (h : Rules s q) (hcapped : Capped s q.running)
    (hfresh : Along step (fun q a => a.Fresh q) q as) : Capped s (exec step q as).running := by
  have hstep (q : Queue) (a : Action) (hq : Rules s q ∧ Capped s q.running) (hf : a.Fresh q) :
      Rules s (step q a) ∧ Capped s (step q a).running := by
    obtain ⟨hrules, hcaps, -⟩ := rules_step hq.1 hf
    exact ⟨hrules, hcaps hq.2⟩
  have hrun := exec_invariant (I := fun q => Rules s q ∧ Capped s q.running) hstep ⟨h, hcapped⟩ hfresh
  exact hrun.2

theorem separator_inj {l l' r r' : List Char} {c : Char} (hl : c ∉ l) (hl' : c ∉ l')
    (h : l ++ c :: r = l' ++ c :: r') : l = l' ∧ r = r' := by
  induction l generalizing l' with
  | nil =>
    cases l' with
    | nil => exact ⟨rfl, (List.cons.inj h).2⟩
    | cons x l' =>
      obtain ⟨rfl, -⟩ := List.cons.inj h
      simp at hl'
  | cons x l ih =>
    rw [List.mem_cons, not_or] at hl
    cases l' with
    | nil =>
      obtain ⟨rfl, -⟩ := List.cons.inj h
      exact absurd rfl hl.1
    | cons y l' =>
      rw [List.mem_cons, not_or] at hl'
      obtain ⟨rfl, hrest⟩ := List.cons.inj h
      obtain ⟨rfl, rfl⟩ := ih hl.2 hl'.2 hrest
      exact ⟨rfl, rfl⟩

/-- A group names a repository and a ref, as long as no repository's name has the separator. -/
theorem group_eq_iff (hb : '\x00' ∉ b.repo.toList) (hw : '\x00' ∉ w.repo.toList) :
    b.group = w.group ↔ b.repo = w.repo ∧ b.ref = w.ref := by
  unfold Build.group
  constructor
  · intro h
    have hlists : b.repo.toList ++ '\x00' :: b.ref.toList =
        w.repo.toList ++ '\x00' :: w.ref.toList := by
      simpa using congrArg String.toList h
    obtain ⟨hrepo, href⟩ := separator_inj hb hw hlists
    exact ⟨String.toList_inj.mp hrepo, String.toList_inj.mp href⟩
  · rintro ⟨hrepo, href⟩
    rw [hrepo, href]

/-- The rules hold in every state that a new queue reaches, with the caps. After a restore they
hold with the caps kept to by every start. A branch is what the group of a build names. -/
theorem build_queue_rules (hnew : newQueue s = .ok q) :
    (∀ as, Along step (fun q a => a.Fresh q) q as →
      Rules s.withDefaults (exec step q as) ∧ Capped s.withDefaults (exec step q as).running) ∧
    (∀ builds p d, q.restore builds = (p, .ok d) →
      ∀ as, Along step (fun q a => a.Fresh q) p as →
        Rules s.withDefaults (exec step p as) ∧
        ∀ a, a.Fresh (exec step p as) → StartsWithinCaps s.withDefaults (exec step p as) a) ∧
    ∀ b w : Build, '\x00' ∉ b.repo.toList → '\x00' ∉ w.repo.toList →
      (b.group = w.group ↔ b.repo = w.repo ∧ b.ref = w.ref) := by
  obtain ⟨hrules, hcapped⟩ := newQueue_rules hnew
  refine ⟨fun as hfresh => ?_, fun builds p d hok as hfresh => ?_, fun b w hb hw => ?_⟩
  · exact ⟨rules_exec hrules hfresh, capped_exec hrules hcapped hfresh⟩
  · have hrun := rules_exec (rules_restore hrules hok) hfresh
    exact ⟨hrun, fun a ha => (rules_step hrun ha).2.2⟩
  · exact group_eq_iff hb hw

theorem build_queue_rules_tiny :
    ∃ q, newQueue ⟨1, 1, 1, false, false⟩ = .ok q ∧
      Rules ⟨1, 1, 1, false, false⟩ (exec step q [.submit ⟨"1", "a", "x", "s", false, 0⟩,
        .submit ⟨"2", "b", "x", "s", false, 1⟩, .finish "1", .remove "2"]) ∧
      ∃ p d, q.restore [⟨"3", "a", "x", "s", false, 0⟩, ⟨"4", "a", "y", "s", false, 1⟩] = (p, .ok d) ∧
        Rules ⟨1, 1, 1, false, false⟩ (exec step p [.submit ⟨"1", "a", "x", "t", false, 2⟩]) := by
  obtain ⟨hruns, hrestored, -⟩ := build_queue_rules (s := ⟨1, 1, 1, false, false⟩) rfl
  have hrun := hrestored [⟨"3", "a", "x", "s", false, 0⟩, ⟨"4", "a", "y", "s", false, 1⟩] _ _ rfl
    [.submit ⟨"1", "a", "x", "t", false, 2⟩] (by decide)
  exact ⟨_, rfl, (hruns _ (by decide)).1, _, _, rfl, hrun.1⟩

/-- With the separator in a repository's name, two branches are one group: the second build
waits for the first beside free places. -/
theorem spliced_branch_waits :
    ∃ q, newQueue ⟨3, 3, 3, true, false⟩ = .ok q ∧
      ∃ as, Along step (fun q a => a.Fresh q) q as ∧ ∃ w ∈ (exec step q as).waiting,
        (exec step q as).running.length < 3 ∧ countRepo (exec step q as).running w.repo < 3 ∧
        ∀ r ∈ (exec step q as).running, ¬ (r.repo = w.repo ∧ r.ref = w.ref) := by
  refine ⟨_, rfl, [.submit ⟨"1", "a\x00b", "c", "s", false, 0⟩,
    .submit ⟨"2", "a", "b\x00c", "t", false, 1⟩], by decide, ⟨"2", "a", "b\x00c", "t", false, 1⟩, ?_⟩
  decide

end Runs
end Kubeast.BuildQueue
