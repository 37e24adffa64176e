import Kubeast.BuildQueue.Ledger
import Kubeast.Foundation.Sorted
import Mathlib.Data.Prod.Lex
import Mathlib.Data.String.Basic

/-! The build queue after a restart (`queue/restore.go`): the running builds are put back from their Jobs,
in whatever order these are found. -/
namespace Kubeast.BuildQueue
open Sorted Transition

namespace Queue

/-- `Snapshot`: the running builds by arrival, and the waiting ones in order. -/
def snapshot (q : Queue) : List Build × List Build :=
  (q.running.insertionSort fun a b => !less b a, q.waiting)

/-- The place in line, from 1, and 0 where the build does not wait. -/
def position (q : Queue) (id : String) : ℕ := (q.indexOf id).elim 0 (· + 1)

end Queue

/-- What a Job has to say of its build. -/
structure Build.Complete (b : Build) : Prop where
  id : b.id ≠ ""
  repo : b.repo ≠ ""
  ref : b.ref ≠ ""

instance (b : Build) : Decidable b.Complete :=
  decidable_of_iff (b.id ≠ "" ∧ b.repo ≠ "" ∧ b.ref ≠ "")
    ⟨fun ⟨hid, hrepo, href⟩ => ⟨hid, hrepo, href⟩, fun ⟨hid, hrepo, href⟩ => ⟨hid, hrepo, href⟩⟩

/-- What builds are ordered by. -/
def arrival (b : Build) : ℤ ×ₗ String := toLex (b.enqueued, b.id)

variable {q p : Queue} {b x : Build} {found bs pre : List Build} {seen : List String}

section Order

theorem less_iff {a b : Build} : Queue.less a b = true ↔ arrival a < arrival b := by
  unfold Queue.less arrival
  rw [Prod.Lex.toLex_lt_toLex, Bool.or_eq_true, Bool.and_eq_true, decide_eq_true_iff, decide_eq_true_iff,
    beq_iff_eq]

theorem insertionSort_eq (bs : List Build) : (bs.insertionSort fun a b => !Queue.less b a) = sortBy arrival bs := by
  have hle (a b : Build) : (!Queue.less b a) = true ↔ arrival a ≤ arrival b := by
    rw [Bool.not_eq_true', ← not_lt, ← less_iff, Bool.not_eq_true]
  unfold sortBy
  simp only [hle]

theorem nodup_arrival (hids : (found.map Build.id).Nodup) : (found.map arrival).Nodup := by
  have hid : found.map Build.id = (found.map arrival).map fun k => (ofLex k).2 := by
    rw [List.map_map]
    rfl
  rw [hid] at hids
  exact hids.of_map _

/-- Builds with ids of their own are sorted in one way. -/
theorem sortBy_perm (hids : (found.map Build.id).Nodup) (hperm : bs.Perm found) :
    sortBy arrival bs = sortBy arrival found := by
  refine (increasing_sortBy (nodup_arrival ?_)).ext (increasing_sortBy (nodup_arrival hids)) fun x => ?_
  · exact (hperm.map Build.id).nodup_iff.mpr hids
  · rw [mem_sortBy, mem_sortBy, hperm.mem_iff]

end Order

section Newest

/-- The newest build of its branch. -/
def Newest (bs : List Build) (x : Build) : Prop := x ∈ bs ∧ ∀ y ∈ bs, y.group = x.group → arrival y ≤ arrival x

theorem newest_append (h : Increasing arrival (pre ++ [b])) :
    Newest (pre ++ [b]) x ↔ x = b ∨ Newest pre x ∧ x.group ≠ b.group := by
  have hlast (y : Build) (hy : y ∈ pre) : arrival y < arrival b :=
    (List.pairwise_append.mp h).2.2 y hy b (List.mem_singleton_self b)
  constructor
  · rintro ⟨hx, hnewest⟩
    rcases List.mem_append.mp hx with hx | hx
    · refine .inr ⟨⟨hx, fun y hy => hnewest y (List.mem_append_left _ hy)⟩, fun hgroup => ?_⟩
      exact absurd (hnewest b (by simp) hgroup.symm) (not_le.mpr (hlast x hx))
    · exact .inl (List.mem_singleton.mp hx)
  · rintro (rfl | ⟨⟨hx, hnewest⟩, hgroup⟩)
    · refine ⟨by simp, fun y hy _ => ?_⟩
      rcases List.mem_append.mp hy with hy | hy
      · exact (hlast y hy).le
      · rw [List.mem_singleton.mp hy]
    · refine ⟨List.mem_append_left _ hx, fun y hy hsame => ?_⟩
      rcases List.mem_append.mp hy with hy | hy
      · exact hnewest y hy hsame
      · rw [List.mem_singleton.mp hy] at hsame
        exact absurd hsame.symm hgroup

/-- One build put back takes the place of the one of its branch. -/
theorem mem_restoreOne {acc : Queue × List Build} (h : Indexed acc.1) (hid : b.id ∉ acc.1.running.map Build.id) :
    x ∈ (Queue.restoreOne acc b).1.running ↔ x = b ∨ x ∈ acc.1.running ∧ x.group ≠ b.group := by
  unfold Queue.restoreOne
  cases hgroup : acc.1.runningGroup b.group with
  | none =>
    have hnone : b.group ∉ acc.1.running.map Build.group := by
      rw [← h.isSome_runningGroup, hgroup]
      exact Bool.false_ne_true
    have hother (hx : x ∈ acc.1.running) : x.group ≠ b.group := fun hsame =>
      hnone (List.mem_map.mpr ⟨x, hx, hsame⟩)
    dsimp only
    rw [running_run hid, List.mem_append, List.mem_singleton, or_comm]
    exact or_congr_right ⟨fun hx => ⟨hx, hother hx⟩, And.left⟩
  | some id =>
    obtain ⟨r, hr, hrg, rfl⟩ := (h.runningGroup b.group id).mp hgroup
    have hid' : b.id ∉ (acc.1.release r.id).running.map Build.id :=
      fun hmem => hid ((List.filter_sublist.map _).subset hmem)
    dsimp only
    rw [running_run hid', List.mem_append, List.mem_singleton, or_comm, running_release, List.mem_filter, bne_iff_ne]
    refine or_congr_right (and_congr_right fun hx => not_congr ⟨fun hsame => ?_, fun hsame => ?_⟩)
    · rw [List.inj_on_of_nodup_map h.ids hx hr hsame, hrg]
    · rw [List.inj_on_of_nodup_map h.groups hx hr (hsame.trans hrg.symm)]

/-- The loop of `Restore`: what runs is the newest of each branch so far. -/
theorem restore_newest (acc : Queue × List Build) (h : Indexed acc.1) (hwaiting : acc.1.waiting = [])
    (hsorted : Increasing arrival (pre ++ bs)) (hids : ((pre ++ bs).map Build.id).Nodup)
    (hrunning : ∀ x, x ∈ acc.1.running ↔ Newest pre x) :
    x ∈ (bs.foldl Queue.restoreOne acc).1.running ↔ Newest (pre ++ bs) x := by
  induction bs generalizing pre acc with
  | nil => rw [List.append_nil, List.foldl_nil, hrunning]
  | cons b bs ih =>
    have hid : b.id ∉ acc.1.running.map Build.id := by
      intro hmem
      obtain ⟨y, hy, hsame⟩ := List.mem_map.mp hmem
      rw [List.map_append, List.map_cons, List.nodup_append] at hids
      exact hids.2.2 y.id (List.mem_map_of_mem ((hrunning y).mp hy).1) b.id List.mem_cons_self hsame
    obtain ⟨hindexed, hwait, -, -⟩ := restoreOne_spec h hwaiting hid
    rw [List.append_cons] at hsorted hids
    rw [List.foldl_cons, ih _ hindexed hwait hsorted hids, ← List.append_cons]
    intro y
    rw [mem_restoreOne h hid, newest_append (List.pairwise_append.mp hsorted).1, hrunning]

end Newest

section Restart
variable {s : Settings} {t : Ledger}

theorem checkRestored_iff : Queue.checkRestored seen found = .ok () ↔
    (∀ b ∈ found, b.Complete ∧ b.id ∉ seen) ∧ (found.map Build.id).Nodup := by
  induction found generalizing seen with
  | nil => exact iff_of_true rfl ⟨List.forall_mem_nil _, List.nodup_nil⟩
  | cons b bs ih =>
    have hcomplete : ¬(b.id = "" ∨ b.repo = "" ∨ b.ref = "") ↔ b.Complete := by
      rw [not_or, not_or]
      exact ⟨fun ⟨hid, hrepo, href⟩ => ⟨hid, hrepo, href⟩, fun ⟨hid, hrepo, href⟩ => ⟨hid, hrepo, href⟩⟩
    rw [Queue.checkRestored, List.forall_mem_cons, List.map_cons, List.nodup_cons, List.mem_map]
    split_ifs with hempty hseen
    · exact iff_of_false (by simp) fun h => hcomplete.mpr h.1.1.1 hempty
    · exact iff_of_false (by simp) fun h => h.1.1.2 hseen
    · rw [ih]
      constructor
      · rintro ⟨hbs, hids⟩
        refine ⟨⟨⟨hcomplete.mp hempty, hseen⟩, fun x hx => ?_⟩, ?_, hids⟩
        · exact ⟨(hbs x hx).1, fun hmem => (hbs x hx).2 (List.mem_cons_of_mem _ hmem)⟩
        · rintro ⟨x, hx, hsame⟩
          exact (hbs x hx).2 (hsame ▸ List.mem_cons_self)
      · rintro ⟨⟨-, hbs⟩, hnot, hids⟩
        refine ⟨fun x hx => ⟨(hbs x hx).1, fun hmem => ?_⟩, hids⟩
        rcases List.mem_cons.mp hmem with hsame | hmem
        · exact hnot ⟨x, hx, hsame⟩
        · exact (hbs x hx).2 hmem

/-- A restore of builds that hold, in any order. -/
theorem restore_state (hnew : newQueue s = .ok q) (hcomplete : ∀ b ∈ found, b.Complete)
    (hids : (found.map Build.id).Nodup) :
    ∃ p d, (∀ bs : List Build, bs.Perm found → q.restore bs = (p, .ok d)) ∧ d.start = [] ∧ d.replaced = [] ∧
      Indexed p ∧ p.waiting = [] ∧ (d.cancel ++ p.running).Perm found ∧ ∀ b, b ∈ p.running ↔ Newest found b := by
  obtain ⟨hrunning, hwaiting⟩ := newQueue_empty hnew
  have hindexed := (newQueue_rules hnew).1.indexed
  have hempty : ¬(q.running.length > 0 ∨ q.waiting.length > 0) := by simp [hrunning, hwaiting]
  have hrestore (bs : List Build) (hperm : bs.Perm found) : q.restore bs =
      (((sortBy arrival found).foldl Queue.restoreOne (q, [])).1,
        .ok ⟨[], ((sortBy arrival found).foldl Queue.restoreOne (q, [])).2, []⟩) := by
    have hchecked : Queue.checkRestored [] bs = .ok () := checkRestored_iff.mpr
      ⟨fun b hb => ⟨hcomplete b (hperm.subset hb), List.not_mem_nil⟩, (hperm.map Build.id).nodup_iff.mpr hids⟩
    rw [Queue.restore, if_neg hempty, hchecked]
    dsimp only
    rw [insertionSort_eq, sortBy_perm hids hperm]
  rcases restore_spec hindexed found with
    ⟨e, hrefused⟩ | ⟨p, d, hok, -, -, hstart, hreplaced, hp, -, hwait, -, hperm⟩
  · have hsame := (hrestore found (List.Perm.refl _)).symm.trans hrefused
    cases congrArg Prod.snd hsame
  · have hsame := (hrestore found (List.Perm.refl _)).symm.trans hok
    refine ⟨p, d, fun bs hbs => (hrestore bs hbs).trans hsame, hstart, hreplaced, hp, hwait, hperm, fun b => ?_⟩
    obtain rfl : _ = p := congrArg Prod.fst hsame
    have hsorted : ((sortBy arrival found).map Build.id).Nodup :=
      ((perm_sortBy arrival found).map Build.id).nodup_iff.mpr hids
    have hloop : b ∈ ((sortBy arrival found).foldl Queue.restoreOne (q, [])).1.running ↔
        Newest ([] ++ sortBy arrival found) b := by
      refine restore_newest (q, []) hindexed hwaiting (increasing_sortBy (nodup_arrival hids)) hsorted fun x => ?_
      rw [hrunning]
      exact iff_of_false List.not_mem_nil fun h => List.not_mem_nil h.1
    refine hloop.trans ?_
    rw [List.nil_append, Newest, mem_sortBy]
    exact and_congr_right fun _ => forall_congr' fun y => by rw [mem_sortBy]

/-- A restart finds the running builds in any order and ends in one state: of each branch the newest runs,
and the others are cancelled. -/
theorem restore_found (hnew : newQueue s = .ok q) (hcomplete : ∀ b ∈ found, b.Complete)
    (hids : (found.map Build.id).Nodup) :
    ∃ p d, (∀ bs : List Build, bs.Perm found → q.restore bs = (p, .ok d)) ∧ d.start = [] ∧ d.replaced = [] ∧
      (d.cancel ++ p.running).Perm found ∧ ∀ b, b ∈ p.running ↔ Newest found b := by
  obtain ⟨p, d, hrestore, hstart, hreplaced, -, -, hperm, hnewest⟩ := restore_state hnew hcomplete hids
  exact ⟨p, d, hrestore, hstart, hreplaced, hperm, hnewest⟩

/-- A crash between a cancel and the start that follows leaves two builds of one branch. -/
def twins : List Build := [⟨"2", "a", "x", "t", false, 1⟩, ⟨"1", "a", "x", "s", false, 0⟩]

theorem restore_found_twins : ∃ q p d, newQueue ⟨0, 0, 0, false, false⟩ = .ok q ∧
    (∀ bs : List Build, bs.Perm twins → q.restore bs = (p, .ok d)) ∧ (d.cancel ++ p.running).Perm twins := by
  obtain ⟨p, d, hrestore, -, -, hperm, -⟩ :=
    restore_found (s := ⟨0, 0, 0, false, false⟩) rfl (by decide : ∀ b ∈ twins, b.Complete) (by decide)
  exact ⟨_, p, d, rfl, hrestore, hperm⟩

/-- The indexes are those of the running builds, in whatever order these are. -/
theorem RunningIndexed.eq_of_perm (hp : RunningIndexed p) (hq : RunningIndexed q) (h : p.running.Perm q.running) :
    p.runningGroup = q.runningGroup ∧ p.perRepo = q.perRepo := by
  constructor
  · funext g
    refine Option.ext fun id => ?_
    rw [hp.runningGroup, hq.runningGroup]
    exact exists_congr fun b => and_congr_left fun _ => h.mem_iff
  · funext repo
    have hcount : countRepo p.running repo = countRepo q.running repo := h.countP_eq _
    rw [hp.perRepo, hq.perRepo, hcount]

/-- The builds that run when the controller stops, put back in any order, run as they did. -/
theorem restart_keeps (h : Ledger.Reached s t) (hcomplete : ∀ b ∈ t.queue.running, b.Complete)
    (hnew : newQueue s = .ok q) (hfound : found.Perm t.queue.running) :
    ∃ p, q.restore found = (p, .ok .none) ∧ p.snapshot = (t.queue.snapshot.1, []) ∧
      p.runningGroup = t.queue.runningGroup ∧ p.perRepo = t.queue.perRepo := by
  have hindexed := (Ledger.kept_of_reached h).indexed
  have hids : (found.map Build.id).Nodup := (hfound.map Build.id).nodup_iff.mpr hindexed.ids
  obtain ⟨p, d, hrestore, hstart, hreplaced, hp, hwait, hperm, hnewest⟩ :=
    restore_state hnew (fun b hb => hcomplete b (hfound.subset hb)) hids
  have hsame (b : Build) : b ∈ p.running ↔ b ∈ found := by
    rw [hnewest]
    refine ⟨And.left, fun hb => ⟨hb, fun y hy hgroup => ?_⟩⟩
    rw [List.inj_on_of_nodup_map hindexed.groups (hfound.subset hy) (hfound.subset hb) hgroup]
  have hrunning : p.running.Perm found :=
    (List.perm_ext_iff_of_nodup (List.Nodup.of_map _ hp.ids) (List.Nodup.of_map _ hids)).mpr hsame
  have hcancel : d.cancel = [] := by
    have hlength := hperm.length_eq
    rw [List.length_append, hrunning.length_eq] at hlength
    exact List.length_eq_zero_iff.mp (by omega)
  obtain ⟨start, cancel, replaced⟩ := d
  obtain rfl : start = [] := hstart
  obtain rfl : cancel = [] := hcancel
  obtain rfl : replaced = [] := hreplaced
  refine ⟨p, hrestore found (List.Perm.refl _), ?_, hp.toRunningIndexed.eq_of_perm hindexed.toRunningIndexed
    (hrunning.trans hfound)⟩
  rw [Queue.snapshot, Queue.snapshot, insertionSort_eq, insertionSort_eq, hwait,
    sortBy_perm hindexed.ids (hrunning.trans hfound)]

theorem restart_keeps_two : ∃ t q p, Ledger.Reached ⟨2, 2, 2, false, false⟩ t ∧ t.queue.running.length = 2 ∧
    newQueue ⟨2, 2, 2, false, false⟩ = .ok q ∧ q.restore t.queue.running.reverse = (p, .ok .none) ∧
    p.snapshot = (t.queue.snapshot.1, []) := by
  have hreached : Ledger.Reached ⟨2, 2, 2, false, false⟩ _ :=
    ⟨_, [.submit ⟨"1", "a", "x", "s", false, 0⟩, .submit ⟨"2", "b", "x", "s", false, 1⟩], rfl, by decide, rfl⟩
  obtain ⟨p, hrestore, hsnapshot, -⟩ := restart_keeps hreached (by decide) rfl (List.reverse_perm _)
  exact ⟨_, _, p, hreached, by decide, rfl, hrestore, hsnapshot⟩

end Restart

section Positions
variable {s : Settings} {t : Ledger} {a : Action} {as : List Action} {id : String}

/-- A list that loses members does not move one of the others back. -/
theorem findIdx?_sublist {α : Type*} {f : α → Bool} {l l' : List α} (hsub : l'.Sublist l)
    (honce : l.Pairwise fun x y => ¬(f x = true ∧ f y = true)) :
    (l'.findIdx? f).elim 0 (· + 1) ≤ (l.findIdx? f).elim 0 (· + 1) := by
  induction hsub with
  | slnil => exact le_rfl
  | @cons l' l a hsub ih =>
    obtain ⟨ha, honce⟩ := List.pairwise_cons.mp honce
    rw [List.findIdx?_cons]
    split_ifs with hfa
    · have hnone : l'.findIdx? f = none := List.findIdx?_eq_none_iff.mpr fun x hx =>
        Bool.eq_false_of_not_eq_true fun hfx => ha x (hsub.subset hx) ⟨hfa, hfx⟩
      rw [hnone]
      exact Nat.zero_le _
    · refine (ih honce).trans ?_
      cases l.findIdx? f with
      | none => exact le_rfl
      | some i => exact Nat.le_succ _
  | @cons_cons l' l a hsub ih =>
    have hle := ih (List.pairwise_cons.mp honce).2
    rw [List.findIdx?_cons, List.findIdx?_cons]
    split_ifs
    · exact le_rfl
    · cases hl' : l'.findIdx? f with
      | none => exact Nat.zero_le _
      | some i =>
        cases hl : l.findIdx? f with
        | none => simp [hl', hl] at hle
        | some j =>
          rw [hl', hl] at hle
          exact Nat.succ_le_succ hle

/-- What waits after a call waited before it, in the same order, or the call has submitted it. -/
theorem waiting_step (h : Ledger.Kept t) (hfresh : t.Fresh a) :
    (t.step a).queue.waiting.Sublist (t.queue.waiting ++ t.queue.acceptedBy a) := by
  have hfilled {p : Queue} {line gone out : List Build} (hprepared : Prepared t.queue p line gone out) :
      p.fill.1.waiting.Sublist line := by
    rw [(fill_spec hprepared.indexed).2.2.2.1]
    refine (Greedy.kept_sublist _ _).trans ?_
    rw [hprepared.waiting]
    exact List.filter_sublist
  unfold Ledger.step
  dsimp only
  cases a with
  | restore builds =>
    rcases restore_spec h.indexed builds with ⟨e, hrefused⟩ | ⟨p, d, hok, -, -, -, -, -, -, hwait, -⟩
    · rw [Queue.act, hrefused]
      exact List.sublist_append_left _ _
    · rw [Queue.act, hok]
      dsimp only
      rw [hwait]
      exact List.nil_sublist _
  | submit b =>
    rcases submit_spec h.indexed (h.fresh_queue hfresh) with ⟨e, hrefused⟩ | ⟨p, d, hok, -, hprepared, -⟩
    · rw [Queue.act, hrefused]
      exact List.sublist_append_left _ _
    · have haccepted : t.queue.acceptedBy (.submit b) = [b] := by
        unfold Queue.acceptedBy
        dsimp only
        rw [hok]
        rfl
      rw [haccepted, Queue.act, hok]
      exact hfilled hprepared
  | finish id =>
    obtain ⟨p, hp, hprepared⟩ := finish_spec h.indexed id
    rw [Queue.act, hp]
    exact (hfilled hprepared).trans (List.sublist_append_left _ _)
  | remove id =>
    refine List.Sublist.trans ?_ (List.sublist_append_left _ _)
    rcases remove_spec h.indexed id with ⟨hsame, -⟩ | ⟨w, -, -, -, -, -, -, -, hsub⟩
    · rw [Queue.act, hsame]
    · exact hsub

theorem acceptedBy_fresh (hfresh : t.Fresh a) (hb : b ∈ t.queue.acceptedBy a) :
    b.id ∉ (t.accepted ++ t.restored).map Build.id := by
  cases a with
  | submit x =>
    unfold Queue.acceptedBy at hb
    dsimp only at hb
    split_ifs at hb
    · rw [List.mem_singleton.mp hb]
      exact hfresh
    · cases hb
  | restore builds => cases hb
  | finish id => cases hb
  | remove id => cases hb

theorem position_step (h : Ledger.Kept t) (hfresh : t.Fresh a)
    (hid : id ∈ (t.accepted ++ t.restored).map Build.id) :
    (t.step a).queue.position id ≤ t.queue.position id := by
  have hnew (b : Build) (hb : b ∈ t.queue.acceptedBy a) : ¬(b.id == id) = true := fun hsame =>
    acceptedBy_fresh hfresh hb (beq_iff_eq.mp hsame ▸ hid)
  have hnone : (t.queue.acceptedBy a).findIdx? (fun w => w.id == id) = none :=
    List.findIdx?_eq_none_iff.mpr fun b hb => Bool.eq_false_of_not_eq_true (hnew b hb)
  have honce : (t.queue.waiting ++ t.queue.acceptedBy a).Pairwise fun x y =>
      ¬((x.id == id) = true ∧ (y.id == id) = true) := by
    refine List.pairwise_append.mpr ⟨?_, ?_, fun x _ y hy hsame => hnew y hy hsame.2⟩
    · refine (List.pairwise_map.mp h.indexed.nodup_waiting_ids).imp fun hne hsame => hne ?_
      exact (beq_iff_eq.mp hsame.1).trans (beq_iff_eq.mp hsame.2).symm
    · exact List.pairwise_of_forall_mem_list fun x hx y _ hsame => hnew x hx hsame.1
  have hle := findIdx?_sublist (waiting_step h hfresh) honce
  rw [List.findIdx?_append, hnone, Option.map_none, Option.or_none] at hle
  exact hle

/-- The place in line that is shown of a build never grows. -/
theorem position_antitone (h : Ledger.Reached s t) (hid : id ∈ (t.accepted ++ t.restored).map Build.id)
    (hrun : Along Ledger.step Ledger.Fresh t as) : (exec Ledger.step t as).queue.position id ≤ t.queue.position id := by
  have hkept := Ledger.kept_of_reached h
  clear h
  induction as generalizing t with
  | nil => exact le_rfl
  | cons a as ih =>
    obtain ⟨hfresh, hrun⟩ := hrun
    have hstays : id ∈ ((t.step a).accepted ++ (t.step a).restored).map Build.id := by
      refine (List.Sublist.map _ ?_).subset hid
      exact (List.sublist_append_left _ _).append (List.sublist_append_left _ _)
    exact (ih hstays hrun (Ledger.kept_step hkept hfresh)).trans (position_step hkept hfresh hid)

theorem position_antitone_third : ∃ t, Ledger.Reached ⟨1, 1, 2, false, false⟩ t ∧ t.queue.position "3" = 2 ∧
    (exec Ledger.step t [.finish "1", .submit ⟨"4", "c", "x", "s", false, 3⟩]).queue.position "3" ≤
      t.queue.position "3" := by
  have hreached : Ledger.Reached ⟨1, 1, 2, false, false⟩ _ :=
    ⟨_, [.submit ⟨"1", "a", "x", "s", false, 0⟩, .submit ⟨"2", "b", "x", "s", false, 1⟩,
      .submit ⟨"3", "c", "y", "s", false, 2⟩], rfl, by decide, rfl⟩
  exact ⟨_, hreached, by decide, position_antitone hreached (by decide) (by decide)⟩

end Positions

end Kubeast.BuildQueue
