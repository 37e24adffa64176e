import Kubeast.BuildQueue.Rules
import Mathlib.Data.List.Perm.Subperm

/-! A ledger beside the build queue: every build that was ever accepted or restored, and where
it went. No build is lost, none runs twice, and the order of the line is kept. -/
namespace Kubeast.BuildQueue
open Greedy Transition

/-- The queue with what its calls returned since it was made. -/
structure Ledger where
  queue : Queue
  accepted : List Build
  restored : List Build
  started : List Build
  finished : List Build
  cancelled : List Build
  replaced : List Build
  removed : List Build

/-- Where a build is, or how it left. -/
inductive Place
  | waiting
  | running
  | finished
  | cancelled
  | replaced
  | removed
deriving DecidableEq

namespace Queue

def acceptedBy (q : Queue) : Action → List Build
  | .submit b => if (q.submit b).2.isOk = true then [b] else []
  | _ => []

def restoredBy (q : Queue) : Action → List Build
  | .restore builds => if (q.restore builds).2.isOk = true then builds else []
  | _ => []

def finishedBy (q : Queue) : Action → List Build
  | .finish id => q.running.filter fun r => r.id == id
  | _ => []

def removedBy (q : Queue) : Action → List Build
  | .remove id => if (q.remove id).2 = true then q.waiting.filter (fun w => w.id == id) else []
  | _ => []

end Queue

namespace Ledger

def opened (q : Queue) : Ledger := ⟨q, [], [], [], [], [], [], []⟩

def step (t : Ledger) (a : Action) : Ledger where
  queue := (t.queue.act a).1
  accepted := t.accepted ++ t.queue.acceptedBy a
  restored := t.restored ++ t.queue.restoredBy a
  started := t.started ++ (t.queue.act a).2.start
  finished := t.finished ++ t.queue.finishedBy a
  cancelled := t.cancelled ++ (t.queue.act a).2.cancel
  replaced := t.replaced ++ (t.queue.act a).2.replaced
  removed := t.removed ++ t.queue.removedBy a

def held (t : Ledger) : Place → List Build
  | .waiting => t.queue.waiting
  | .running => t.queue.running
  | .finished => t.finished
  | .cancelled => t.cancelled
  | .replaced => t.replaced
  | .removed => t.removed

/-- The ids of a call are new. -/
def Fresh (t : Ledger) : Action → Prop
  | .submit b => b.id ∉ (t.accepted ++ t.restored).map Build.id
  | .restore builds => ∀ b ∈ builds, b.id ∉ (t.accepted ++ t.restored).map Build.id
  | .finish _ | .remove _ => True

instance (t : Ledger) : (a : Action) → Decidable (t.Fresh a)
  | .submit b => inferInstanceAs (Decidable (b.id ∉ (t.accepted ++ t.restored).map Build.id))
  | .restore builds => inferInstanceAs
      (Decidable (∀ b ∈ builds, b.id ∉ (t.accepted ++ t.restored).map Build.id))
  | .finish _ | .remove _ => isTrue trivial

/-- A state that calls with new ids lead to, from a new queue with the settings. -/
def Reached (s : Settings) (t : Ledger) : Prop :=
  ∃ q as, newQueue s = .ok q ∧ Along step Fresh (opened q) as ∧ exec step (opened q) as = t

/-- Every build is in one place, and those that run, finished or were cancelled are those that
were restored or started. -/
structure Kept (t : Ledger) : Prop where
  indexed : Indexed t.queue
  ids : ((t.accepted ++ t.restored).map Build.id).Nodup
  order : t.queue.waiting.Sublist t.accepted
  places : (t.queue.waiting ++ (t.queue.running ++ (t.finished ++ (t.cancelled ++
    (t.replaced ++ t.removed))))).Perm (t.accepted ++ t.restored)
  starts : (t.queue.running ++ (t.finished ++ t.cancelled)).Perm (t.restored ++ t.started)

variable {t : Ledger} {a : Action} {b o w : Build} {pre post : List Build}

section Conserved

theorem Kept.nodup (h : Kept t) : (t.accepted ++ t.restored).Nodup := List.Nodup.of_map _ h.ids

theorem Kept.fresh_queue (h : Kept t) (hb : b.id ∉ (t.accepted ++ t.restored).map Build.id) :
    b.id ∉ (t.queue.running ++ t.queue.waiting).map Build.id := by
  intro hmem
  obtain ⟨x, hx, hid⟩ := List.mem_map.mp hmem
  have hplace : x ∈ t.accepted ++ t.restored := by
    rw [← h.places.mem_iff]
    rcases List.mem_append.mp hx with hx | hx <;> simp [hx]
  exact hb (List.mem_map.mpr ⟨x, hplace, hid⟩)

theorem perm_fill {p : Queue} (h : Indexed p) :
    (p.fill.1.waiting ++ p.fill.2).Perm p.waiting ∧ p.fill.1.running = p.running ++ p.fill.2 := by
  obtain ⟨-, -, hrunning, hwaiting, hstarted⟩ := fill_spec h
  rw [hwaiting, hstarted]
  exact ⟨perm_pass _ _ _, hrunning⟩

theorem filter_id_eq {l : List Build} (hids : (l.map Build.id).Nodup) (hw : w ∈ l) :
    l.filter (fun b => b.id == w.id) = [w] := by
  induction l with
  | nil => cases hw
  | cons x l ih =>
    obtain ⟨hx, hl⟩ := List.nodup_cons.mp hids
    rcases List.mem_cons.mp hw with rfl | hw
    · have hnone : l.filter (fun b => b.id == w.id) = [] := by
        rw [List.filter_eq_nil_iff]
        intro b hb
        rw [beq_iff_eq]
        intro heq
        exact hx (List.mem_map.mpr ⟨b, hb, heq⟩)
      simp [hnone]
    · have hne : x.id ≠ w.id := fun heq => hx (List.mem_map.mpr ⟨w, hw, heq.symm⟩)
      rw [List.filter_cons_of_neg (by simpa using hne)]
      exact ih hl hw

/-- The ledger after a call that fills places: the builds gone were finished or cancelled. -/
theorem Kept.filled {p : Queue} {line gone out new : List Build} (h : Kept t)
    (hprepared : Prepared t.queue p line gone out) (hline : line = t.queue.waiting ++ new)
    (hids : ((t.accepted ++ new ++ t.restored).map Build.id).Nodup) {finished cancelled : List Build}
    (hgone : (finished ++ cancelled).Perm (t.finished ++ t.cancelled ++ gone)) :
    Kept { queue := p.fill.1, accepted := t.accepted ++ new, restored := t.restored,
           started := t.started ++ p.fill.2, finished := finished, cancelled := cancelled,
           replaced := t.replaced ++ out, removed := t.removed } := by
  obtain ⟨hperm, hrunning⟩ := perm_fill hprepared.indexed
  obtain ⟨hindexed, -, -, hwaiting, -⟩ := fill_spec hprepared.indexed
  refine ⟨hindexed, hids, ?_, ?_, ?_⟩
  · show p.fill.1.waiting.Sublist (t.accepted ++ new)
    have hkept : p.fill.1.waiting.Sublist p.waiting := by
      rw [hwaiting]
      exact kept_sublist _ _
    have hleft : p.waiting.Sublist line := by
      rw [hprepared.waiting]
      exact List.filter_sublist
    rw [hline] at hleft
    exact hkept.trans (hleft.trans (h.order.append_right new))
  · rw [List.perm_iff_count]
    intro x
    have hplaces := h.places.count_eq x
    have hfilled := hperm.count_eq x
    have hleft := hprepared.line.count_eq x
    have hrun := hprepared.running.count_eq x
    have hout := hgone.count_eq x
    simp only [hline, hrunning, List.count_append] at hplaces hfilled hleft hrun hout ⊢
    omega
  · rw [List.perm_iff_count]
    intro x
    have hstarts := h.starts.count_eq x
    have hrun := hprepared.running.count_eq x
    have hout := hgone.count_eq x
    simp only [hrunning, List.count_append] at hstarts hrun hout ⊢
    omega

theorem step_refused {e : SubmitError} (h : t.queue.submit b = (t.queue, .error e)) :
    t.step (.submit b) = t := by
  simp [step, Queue.act, Queue.acceptedBy, Queue.restoredBy, Queue.finishedBy, Queue.removedBy, h,
    Except.isOk, Except.toBool, Except.toOption, Decision.none]

theorem kept_submit (h : Kept t) (hfresh : t.Fresh (.submit b)) : Kept (t.step (.submit b)) := by
  rcases submit_spec h.indexed (h.fresh_queue hfresh) with
    ⟨e, hrefused⟩ | ⟨p, d, hok, hstart, hprepared, -⟩
  · rw [step_refused hrefused]
    exact h
  · have hids : ((t.accepted ++ [b] ++ t.restored).map Build.id).Nodup := by
      have hperm : (b :: (t.accepted ++ t.restored)).Perm (t.accepted ++ [b] ++ t.restored) := by
        rw [List.append_assoc]
        exact List.perm_middle.symm
      rw [← (hperm.map Build.id).nodup_iff, List.map_cons, List.nodup_cons]
      exact ⟨hfresh, h.ids⟩
    have hgone : (t.finished ++ (t.cancelled ++ d.cancel)).Perm
        (t.finished ++ t.cancelled ++ d.cancel) := by
      rw [List.append_assoc]
    have hkept := h.filled hprepared rfl hids hgone
    simpa [step, Queue.act, Queue.acceptedBy, Queue.restoredBy, Queue.finishedBy, Queue.removedBy,
      hok, Except.isOk, Except.toBool, Except.toOption, hstart] using hkept

theorem kept_finish (h : Kept t) (id : String) : Kept (t.step (.finish id)) := by
  obtain ⟨p, hp, hprepared⟩ := finish_spec h.indexed id
  have hgone : (t.finished ++ t.queue.finishedBy (.finish id) ++ t.cancelled).Perm
      (t.finished ++ t.cancelled ++ t.queue.running.filter fun r => r.id == id) := by
    rw [List.append_assoc, List.append_assoc]
    exact List.perm_append_comm.append_left _
  have hkept := h.filled hprepared (List.append_nil _).symm (by simpa using h.ids) hgone
  simpa [step, Queue.act, Queue.acceptedBy, Queue.restoredBy, Queue.removedBy, hp] using hkept

theorem kept_remove (h : Kept t) (id : String) : Kept (t.step (.remove id)) := by
  rcases remove_spec h.indexed id with ⟨hq, hfalse⟩ | ⟨w, hw, hid, htrue, hindexed, -, hrun, hperm, hsub⟩
  · have hsame : t.step (.remove id) = t := by
      simp [step, Queue.act, Queue.acceptedBy, Queue.restoredBy, Queue.finishedBy,
        Queue.removedBy, hq, hfalse, Decision.none]
    rw [hsame]
    exact h
  · have hremoved : t.queue.removedBy (.remove id) = [w] := by
      obtain rfl := hid
      simp [Queue.removedBy, htrue, filter_id_eq h.indexed.nodup_waiting_ids hw]
    refine ⟨hindexed, ?_, ?_, ?_, ?_⟩
    · simpa [step, Queue.acceptedBy, Queue.restoredBy] using h.ids
    · simpa [step, Queue.act, Queue.acceptedBy] using hsub.trans h.order
    · rw [List.perm_iff_count]
      intro x
      have hplaces := h.places.count_eq x
      have hleft := hperm.count_eq x
      simp [step, Queue.act, Queue.acceptedBy, Queue.restoredBy, Queue.finishedBy, hremoved,
        hrun, Decision.none, List.count_cons] at hplaces hleft ⊢
      omega
    · simpa [step, Queue.act, Queue.restoredBy, Queue.finishedBy, hrun, Decision.none] using h.starts

theorem kept_restore (h : Kept t) {builds : List Build} (hfresh : t.Fresh (.restore builds)) :
    Kept (t.step (.restore builds)) := by
  rcases restore_spec h.indexed builds with ⟨e, hrefused⟩ | ⟨p, d, hok, hspec⟩
  · have hsame : t.step (.restore builds) = t := by
      simp [step, Queue.act, Queue.acceptedBy, Queue.restoredBy, Queue.finishedBy,
        Queue.removedBy, hrefused, Except.isOk, Except.toBool, Except.toOption, Decision.none]
    rw [hsame]
    exact h
  · obtain ⟨hrunning, hwaiting, hstart, hreplaced, hindexed, -, hnone, hnodup, hperm⟩ := hspec
    have hstep : t.step (.restore builds) = { t with
        queue := p, restored := t.restored ++ builds, cancelled := t.cancelled ++ d.cancel } := by
      simp [step, Queue.act, Queue.acceptedBy, Queue.restoredBy, Queue.finishedBy,
        Queue.removedBy, hok, Except.isOk, Except.toBool, Except.toOption, hstart, hreplaced]
    rw [hstep]
    refine ⟨hindexed, ?_, ?_, ?_, ?_⟩
    · show ((t.accepted ++ (t.restored ++ builds)).map Build.id).Nodup
      rw [← List.append_assoc, List.map_append]
      refine h.ids.append hnodup ?_
      intro id hold hnew
      obtain ⟨b, hb, rfl⟩ := List.mem_map.mp hnew
      exact hfresh b hb hold
    · show p.waiting.Sublist t.accepted
      rw [hnone]
      exact List.nil_sublist _
    · rw [List.perm_iff_count]
      intro x
      have hplaces := h.places.count_eq x
      have hrun := hperm.count_eq x
      simp only [hrunning, hwaiting, hnone, List.count_append, List.count_nil] at hplaces hrun ⊢
      omega
    · rw [List.perm_iff_count]
      intro x
      have hstarts := h.starts.count_eq x
      have hrun := hperm.count_eq x
      simp only [hrunning, List.count_append, List.count_nil] at hstarts hrun ⊢
      omega

theorem kept_step (h : Kept t) (hfresh : t.Fresh a) : Kept (t.step a) := by
  cases a with
  | restore builds => exact kept_restore h hfresh
  | submit b => exact kept_submit h hfresh
  | finish id => exact kept_finish h id
  | remove id => exact kept_remove h id

theorem kept_of_reached {s : Settings} (h : Reached s t) : Kept t := by
  obtain ⟨q, as, hnew, hfresh, rfl⟩ := h
  have hopened : Kept (opened q) := by
    have hindexed := (newQueue_rules hnew).1.indexed
    obtain ⟨hrunning, hwaiting⟩ : q.running = [] ∧ q.waiting = [] := newQueue_empty hnew
    refine ⟨hindexed, ?_, ?_, ?_, ?_⟩ <;> simp [opened, hrunning, hwaiting]
  exact exec_invariant (fun _ _ hkept hf => kept_step hkept hf) hopened hfresh

end Conserved

section Placed

theorem existsUnique_place {c : Place → ℕ} (h : c .waiting + (c .running + (c .finished +
    (c .cancelled + (c .replaced + c .removed)))) = 1) : ∃! p, 0 < c p := by
  have hex : ∃ p, 0 < c p := by
    by_contra hnone
    push Not at hnone
    have hw := hnone .waiting
    have hr := hnone .running
    have hf := hnone .finished
    have hc := hnone .cancelled
    have hp := hnone .replaced
    have hm := hnone .removed
    omega
  obtain ⟨p, hp⟩ := hex
  refine ⟨p, hp, fun p' hp' => ?_⟩
  have hp'' : 0 < c p' := hp'
  cases p <;> cases p' <;> first | rfl | omega

variable (h : Kept t) (hb : b ∈ t.accepted)
include h hb

theorem Kept.count_places : t.queue.waiting.count b + (t.queue.running.count b +
    (t.finished.count b + (t.cancelled.count b + (t.replaced.count b + t.removed.count b)))) = 1 := by
  have hone := List.count_eq_one_of_mem h.nodup (List.mem_append_left t.restored hb)
  rw [← h.places.count_eq b] at hone
  simpa only [List.count_append] using hone

theorem Kept.one_place : (∃! p, b ∈ t.held p) ∧ ∀ p, (t.held p).count b ≤ 1 := by
  have hcount := h.count_places hb
  constructor
  · have hunique := existsUnique_place (c := fun p => (t.held p).count b) hcount
    simpa only [List.count_pos_iff] using hunique
  · intro p
    cases p <;> simp only [held] <;> omega

theorem Kept.started_once : t.started.count b ≤ 1 ∧ (b ∈ t.replaced → b ∉ t.started) := by
  have hcount := h.count_places hb
  have hstarts := h.starts.count_eq b
  simp only [List.count_append] at hstarts
  constructor
  · omega
  · intro hreplaced
    have hpos := List.count_pos_iff.mpr hreplaced
    rw [← List.count_eq_zero]
    omega

end Placed

section Order

/-- A call with new ids starts nothing, or fills places from the line. -/
theorem act_spec (h : Kept t) (hfresh : t.Fresh a) : (t.queue.act a).2.start = [] ∨
    ∃ p gone, Prepared t.queue p (t.queue.waiting ++ t.queue.acceptedBy a) gone
        (t.queue.act a).2.replaced ∧
      (t.queue.act a).1 = p.fill.1 ∧ (t.queue.act a).2.start = p.fill.2 := by
  cases a with
  | restore builds =>
    left
    rcases restore_spec h.indexed builds with ⟨e, hrefused⟩ | ⟨p, d, hok, -, -, hstart, -⟩
    · simp [Queue.act, hrefused, Except.toOption, Decision.none]
    · simp [Queue.act, hok, Except.toOption, hstart]
  | submit b =>
    rcases submit_spec h.indexed (h.fresh_queue hfresh) with
      ⟨e, hrefused⟩ | ⟨p, d, hok, hstart, hprepared, -⟩
    · left
      simp [Queue.act, hrefused, Except.toOption, Decision.none]
    · right
      refine ⟨p, d.cancel, ?_, ?_, ?_⟩
      · simpa [Queue.act, Queue.acceptedBy, hok, Except.isOk, Except.toBool, Except.toOption]
          using hprepared
      · simp [Queue.act, hok]
      · simp [Queue.act, hok, Except.toOption, hstart]
  | finish id =>
    right
    obtain ⟨p, hp, hprepared⟩ := finish_spec h.indexed id
    refine ⟨p, t.queue.finishedBy (.finish id), ?_, ?_, ?_⟩
    · simpa [Queue.act, Queue.acceptedBy, Queue.finishedBy, hp] using hprepared
    · simp [Queue.act, hp]
    · simp [Queue.act, hp]
  | remove id => exact Or.inl rfl

theorem start_spec (h : Kept t) (hfresh : t.Fresh a) (hb : b ∈ (t.queue.act a).2.start) :
    b ∈ t.queue.waiting ++ t.queue.acceptedBy a ∧ b ∈ (t.step a).queue.running ∧
      b ∉ (t.step a).queue.waiting := by
  rcases act_spec h hfresh with hnone | ⟨p, gone, hprepared, hqueue, hstart⟩
  · rw [hnone] at hb
    cases hb
  · rw [hstart] at hb
    obtain ⟨hperm, hrunning⟩ := perm_fill hprepared.indexed
    have hwaiting : b ∈ p.waiting := hperm.subset (List.mem_append_right _ hb)
    have hnodup : (p.fill.1.waiting ++ p.fill.2).Nodup :=
      hperm.nodup_iff.mpr hprepared.indexed.nodup_waiting
    refine ⟨?_, ?_, ?_⟩
    · rw [hprepared.waiting] at hwaiting
      exact List.mem_of_mem_filter hwaiting
    · show b ∈ (t.queue.act a).1.running
      rw [hqueue, hrunning]
      exact List.mem_append_right _ hb
    · show b ∉ (t.queue.act a).1.waiting
      rw [hqueue]
      exact fun hmem => List.disjoint_of_nodup_append hnodup hmem hb

/-- A build is started ahead of one that was accepted earlier, and waits, only while the share
of that one's repository is reached or its branch has a running build. -/
theorem start_order (h : Kept t) (hfresh : t.Fresh a)
    (hstart : (t.queue.act a).2.start = pre ++ b :: post) :
    ∃ base, (t.step a).queue.running = base ++ (t.queue.act a).2.start ∧
      ∀ o ∈ t.queue.waiting ++ t.queue.acceptedBy a, o ∉ (t.queue.act a).2.replaced → o ∉ pre →
        [o, b].Sublist (t.step a).accepted →
        t.queue.settings.maxPerRepo ≤ countRepo (base ++ pre) o.repo ∨
          o.group ∈ (base ++ pre).map Build.group := by
  rcases act_spec h hfresh with hnone | ⟨p, gone, hprepared, hqueue, hfill⟩
  · rw [hnone] at hstart
    simp at hstart
  · obtain ⟨-, -, hrunning, -, hstarted⟩ := fill_spec hprepared.indexed
    have htaken : taken (Blocked p.settings) p.running p.waiting = pre ++ b :: post := by
      rw [← hstart, hfill, hstarted, Queue.started]
    refine ⟨p.running, ?_, fun o ho hout hpre horder => ?_⟩
    · show (t.queue.act a).1.running = _
      rw [hqueue, hrunning, hfill, hstarted]
    · have hsub : p.waiting.Sublist (t.step a).accepted := by
        rw [hprepared.waiting]
        exact List.filter_sublist.trans (h.order.append_right _)
      have hnodup : (t.step a).accepted.Nodup := (kept_step h hfresh).nodup.of_append_left
      have howaits : o ∈ p.waiting := by
        rw [hprepared.waiting, List.mem_filter]
        exact ⟨ho, by simpa using hout⟩
      have hbwaits : b ∈ p.waiting := by
        have hmem : b ∈ taken (Blocked p.settings) p.running p.waiting := by simp [htaken]
        exact (taken_sublist _ _).subset hmem
      have hpair := pair_sublist hsub hnodup horder howaits hbwaits
      have hblocked := blocked_of_passed_over (blocked_append p.settings)
        hprepared.indexed.nodup_waiting hpair htaken hpre
      have hfree := free_of_taken htaken
      have hplace : ¬ Blocked p.settings (p.running ++ pre) b = true := by simp [hfree]
      rw [blocked_iff] at hblocked hplace
      rw [hprepared.settings] at hblocked hplace
      exact hblocked.resolve_left fun hfull => hplace (Or.inl hfull)

theorem submit_error {q : Queue} {e : SubmitError} (h : (q.submit b).2 = .error e) :
    (q.submit b).1 = q := by
  unfold Queue.submit at h ⊢
  split
  · rfl
  · next hfresh =>
    rw [if_neg hfresh] at h
    cases hwaits : q.waitingOf b.group with
    | some r =>
      simp only [hwaits] at h ⊢
      split_ifs at h ⊢
      rfl
    | none =>
      simp only [hwaits] at h ⊢
      split_ifs at h ⊢
      rfl

end Order

section Main
variable {s : Settings}

/-- No build is lost and none is duplicated, a refused one changes nothing, and a later build
overtakes an earlier one only where that one could not start. A branch is what the group of a
build names. -/
theorem no_build_lost (h : Reached s t) :
    (∀ b ∈ t.accepted, (∃! p, b ∈ t.held p) ∧ (∀ p, (t.held p).count b ≤ 1) ∧
      t.started.count b ≤ 1 ∧ (b ∈ t.replaced → b ∉ t.started)) ∧
    (∀ b e, (t.queue.submit b).2 = .error e → (t.queue.submit b).1 = t.queue) ∧
    (∀ a, t.Fresh a → ∀ pre b post, (t.queue.act a).2.start = pre ++ b :: post →
      (b ∈ t.queue.waiting ++ t.queue.acceptedBy a ∧ b ∈ (t.step a).queue.running ∧
        b ∉ (t.step a).queue.waiting) ∧
      ∃ base, (t.step a).queue.running = base ++ (t.queue.act a).2.start ∧
        ∀ o ∈ t.queue.waiting ++ t.queue.acceptedBy a, o ∉ (t.queue.act a).2.replaced → o ∉ pre →
          [o, b].Sublist (t.step a).accepted →
          t.queue.settings.maxPerRepo ≤ countRepo (base ++ pre) o.repo ∨
            o.group ∈ (base ++ pre).map Build.group) ∧
    ∀ b w : Build, '\x00' ∉ b.repo.toList → '\x00' ∉ w.repo.toList →
      (b.group = w.group ↔ b.repo = w.repo ∧ b.ref = w.ref) := by
  have hkept := kept_of_reached h
  refine ⟨fun b hb => ?_, fun b e hrefused => submit_error hrefused,
    fun a hfresh pre b post hstart => ⟨?_, start_order hkept hfresh hstart⟩,
    fun b w hb hw => group_eq_iff hb hw⟩
  · obtain ⟨hplace, hcount⟩ := hkept.one_place hb
    obtain ⟨honce, hnever⟩ := hkept.started_once hb
    exact ⟨hplace, hcount, honce, hnever⟩
  · apply start_spec hkept hfresh
    rw [hstart]
    simp

theorem no_build_lost_replaced :
    ∃ t, Reached ⟨1, 1, 2, false, false⟩ t ∧ t.replaced = [⟨"2", "b", "x", "s", false, 1⟩] ∧
      ∃! p, (⟨"2", "b", "x", "s", false, 1⟩ : Build) ∈ t.held p := by
  have hreached : Reached ⟨1, 1, 2, false, false⟩ _ :=
    ⟨_, [.submit ⟨"1", "a", "x", "s", false, 0⟩, .submit ⟨"2", "b", "x", "s", false, 1⟩,
      .submit ⟨"3", "b", "x", "t", false, 2⟩, .finish "1"], rfl, by decide, rfl⟩
  exact ⟨_, hreached, by decide, ((no_build_lost hreached).1 _ (by decide)).1⟩

/-- With the separator in a repository's name, a build overtakes an earlier one of another
branch, whose repository runs nothing. -/
theorem spliced_branch_overtaken :
    ∃ t, Reached ⟨3, 3, 3, true, false⟩ t ∧ ∃ o ∈ t.queue.waiting, ∃ b, t.Fresh (.submit b) ∧
      (t.queue.act (.submit b)).2.start = [b] ∧ o ∈ (t.step (.submit b)).queue.waiting ∧
      countRepo t.queue.running o.repo < 3 ∧
      ∀ r ∈ t.queue.running, ¬ (r.repo = o.repo ∧ r.ref = o.ref) := by
  refine ⟨_, ⟨_, [.submit ⟨"1", "a\x00b", "c", "s", false, 0⟩,
    .submit ⟨"2", "a", "b\x00c", "t", false, 1⟩], rfl, by decide, rfl⟩,
    ⟨"2", "a", "b\x00c", "t", false, 1⟩, by decide, ⟨"3", "z", "y", "s", false, 2⟩, ?_⟩
  decide

end Main
end Ledger
end Kubeast.BuildQueue
