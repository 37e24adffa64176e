import Kubeast.Inbox.Sound

/-! The orders of the statements in which every delivery of a firing is counted. -/
namespace Kubeast.Inbox
open Transition

/-- What the inbox owes the deliveries of `k` that were handled so far. -/
structure Correct (k : Key) (s : World) : Prop where
  row : s.handled ≠ [] → ∃ r, s.db.select (fun x => x.alert = k) = [r] ∧
    r.receivedCount = s.handled.length ∧
    ((∃ h ∈ s.handled, h.alert.firing = false) → r.state = .resolved ∧ r.resolvedAt.isSome = true)
  answered : ∀ h ∈ s.handled, h.answer ≠ none
  resolvedOnce : (∃ h ∈ s.handled, h.alert.firing = false) →
    s.handled.countP (fun h => h.answer = some .resolved) = 1
  newOnce : s.handled ≠ [] →
    s.handled.countP (fun h => h.answer = some .new || (h.created && !h.alert.firing)) = 1

def Phase.found : Phase → Option Item
  | .started _ => none
  | .selected _ found => found

/-- A row is written over as it was read. -/
def Fresh (s : World) : Step → Prop
  | .commit i => ∀ r ∈ s.pending[i]?.bind fun p => p.2.found, s.db.get r.alert = some r
  | _ => True

instance (s : World) : (a : Step) → Decidable (Fresh s a)
  | .commit i =>
      inferInstanceAs (Decidable (∀ r ∈ s.pending[i]?.bind fun p => p.2.found, s.db.get r.alert = some r))
  | .call _ | .select _ => isTrue trivial

variable {k : Key} {s : World} {a : Alert} {cur : Item} {i n : ℕ}

/-- What holds as long as every row is written over as it was read. -/
structure Exact (k : Key) (s : World) : Prop where
  count : ∀ cur, s.db.get k = some cur → cur.receivedCount = s.handled.length
  behind : ∀ a n r, (a, .selected n (some r)) ∈ s.pending → ∀ cur, s.db.get k = some cur →
    r = cur ∨ r.receivedCount < cur.receivedCount
  once : s.handled.countP (fun h => h.answer = some .resolved) = if s.closed then 1 else 0

section Counting

theorem Exact.update (hs : Sound k s) (he : Exact k s)
    (hi : s.pending[i]? = some (a, .selected n (some cur))) (hcur : s.db.get k = some cur) :
    Exact k (s.answer i
      (s.db.update (fun x => x.alert = cur.alert) (flush cur (a.countOn cur).1) (alert_flush _ _))
      ⟨a, some (a.countOn cur).2, false⟩) := by
  have hget := get_update_of_found (Table.key_of_get hcur) hcur (a.countOn cur).1
  constructor
  · intro next hnext
    obtain rfl := Option.some.inj (hget.symm.trans hnext)
    rw [receivedCount_flush, he.count cur hcur]
    simp [World.answer]
  · intro b m r hr next hnext
    obtain rfl := Option.some.inj (hget.symm.trans hnext)
    rw [receivedCount_flush]
    rcases he.behind b m r (List.mem_of_mem_eraseIdx hr) cur hcur with rfl | hlt
    · exact Or.inr (Nat.lt_succ_self _)
    · exact Or.inr (Nat.lt_succ_of_lt hlt)
  · have hopen : s.closed = false ↔ cur.state = .firing := by
      rw [← Bool.not_eq_true, ← (hs.state cur hcur).1]
      cases cur.state <;> simp
    rw [closed_answer]
    dsimp only [World.answer]
    rw [List.countP_append, List.countP_singleton, he.once, countOn_snd]
    cases hfiring : a.firing with
    | true => simp [Alert.closes, hfiring]
    | false =>
      cases hclosed : s.closed with
      | true =>
        have hstate := (hs.state cur hcur).1.mpr hclosed
        simp [Alert.closes, hfiring, hstate]
      | false => simp [Alert.closes, hfiring, hopen.mp hclosed]

theorem Exact.insert (hs : Sound k s) (hi : s.pending[i]? = some (a, .selected n none))
    (h : s.db.get a.item.alert = none) : Exact k (s.answer i (s.db.insert a.item h)
      ⟨a, some (if a.firing then .new else .resolved), true⟩) := by
  have hof := hs.calls _ (List.mem_of_getElem? hi)
  have hget : (s.db.insert a.item h).get k = some a.item := by
    rw [Table.get_insert, if_pos hof.alert_item]
  rw [hof.alert_item] at h
  have hnil := hs.stored.mp h
  constructor
  · intro next hnext
    obtain rfl := Option.some.inj (hget.symm.trans hnext)
    simp [World.answer, hnil, Alert.item]
  · intro b m r hr
    obtain ⟨-, -, cur, hcur, -⟩ := hs.found b m r (List.mem_of_mem_eraseIdx hr)
    rw [h] at hcur
    cases hcur
  · have hopen : s.closed = false := by simp [World.closed, hnil]
    rw [closed_answer, hopen]
    dsimp only [World.answer]
    rw [hnil]
    cases a.firing <;> simp

theorem Exact.pending {t : World} (he : Exact k s) (hdb : t.db = s.db) (hhandled : t.handled = s.handled)
    (hpending : ∀ b m r, (b, .selected m (some r)) ∈ t.pending →
      (b, .selected m (some r)) ∈ s.pending ∨ s.db.get k = some r) : Exact k t := by
  constructor
  · rw [hdb, hhandled]
    exact he.count
  · intro b m r hr cur hcur
    rw [hdb] at hcur
    rcases hpending b m r hr with hr | hr
    · exact he.behind b m r hr cur hcur
    · exact Or.inl (Option.some.inj (hr.symm.trans hcur))
  · rw [World.closed, hhandled]
    exact he.once

theorem exact_step (b : Step) (hs : Sound k s) (he : Exact k s) (hfresh : Fresh s b) :
    Exact k (step s b) := by
  cases b with
  | call a =>
    refine he.pending rfl rfl fun b m r hr => Or.inl ?_
    simpa [step] using hr
  | select i =>
    show Exact k (s.select i)
    unfold World.select
    split
    · next a n hi =>
      rw [(hs.calls _ (List.mem_of_getElem? hi)).rowOf_eq]
      refine he.pending rfl rfl fun b m r hr => ?_
      rcases List.mem_or_eq_of_mem_set hr with hr | hr
      · exact Or.inl hr
      · obtain ⟨-, hphase⟩ := Prod.mk.inj hr
        exact Or.inr (Phase.selected.inj hphase).2.symm
    · exact he
  | commit i =>
    show Exact k (s.commit i)
    obtain h | ⟨a, n, r, hi, h⟩ | ⟨a, hi, ⟨hfree, h⟩ | ⟨-, h⟩⟩ := commit_cases hs i
    · rwa [h]
    · have hkey := (hs.found a n r (List.mem_of_getElem? hi)).1
      have hcur : s.db.get r.alert = some r := hfresh r (by rw [hi]; rfl)
      rw [hkey] at hcur
      rw [h]
      exact he.update hs hi hcur
    · rw [h]
      exact Exact.insert hs hi hfree
    · rw [h]
      refine he.pending rfl rfl fun b m r hr => Or.inl ?_
      exact (List.mem_or_eq_of_mem_set hr).resolve_right (by simp)

/-- A row written over as it no longer was is counted short. -/
theorem fresh_of_count (b : Step) (hs : Sound k s) (he : Exact k s)
    (hcount : ∀ cur, (step s b).db.get k = some cur → cur.receivedCount = (step s b).handled.length) :
    Fresh s b := by
  cases b with
  | call a => trivial
  | select i => trivial
  | commit i =>
    intro r hr
    obtain ⟨⟨a, phase⟩, hi, hphase⟩ := Option.bind_eq_some_iff.mp (Option.mem_def.mp hr)
    cases phase with
    | started n => cases hphase
    | selected n found =>
      obtain rfl : found = some r := hphase
      obtain ⟨hkey, -, cur, hcur, -⟩ := hs.found a n r (List.mem_of_getElem? hi)
      have hstep : step s (.commit i) = s.answer i (s.db.update (fun x => x.alert = r.alert)
          (flush r (a.countOn r).1) (alert_flush _ _)) ⟨a, some (a.countOn r).2, false⟩ := by
        have hcounts : a.countsOn r = true := (hs.calls _ (List.mem_of_getElem? hi)).countsOn r
        simp [step, World.commit, hi, Option.filter_some_pos hcounts]
      rw [hstep] at hcount
      have hnext := hcount _ (get_update_of_found hkey hcur _)
      rw [receivedCount_flush] at hnext
      have hlength : r.receivedCount + 1 = s.handled.length + 1 := by simpa [World.answer] using hnext
      rw [hkey, hcur]
      rcases he.behind a n r (List.mem_of_getElem? hi) cur hcur with rfl | hlt
      · rfl
      · have hheld := he.count cur hcur
        omega

theorem exact_start {db : Rows} (h : db.get k = none) : Exact k (World.start db) where
  count cur hcur := by
    rw [World.start, h] at hcur
    cases hcur
  behind _ _ _ h := by cases h
  once := rfl

end Counting

theorem Sound.correct (hs : Sound k s) (he : Exact k s) : Correct k s where
  row h := by
    obtain ⟨r, hr, hone, hstate⟩ := hs.row h
    exact ⟨r, hone, he.count r hr, hstate⟩
  answered := hs.answered
  resolvedOnce := by
    rintro ⟨x, hx, hfiring⟩
    have hclosed : s.closed = true := List.any_eq_true.mpr ⟨x, hx, by simp [hfiring]⟩
    rw [he.once, if_pos hclosed]
  newOnce := hs.newOnce

theorem correct_step_iff (b : Step) (hs : Sound k s) (he : Exact k s) (hof : ∀ a, b = .call a → a.Of k) :
    Correct k (step s b) ↔ Fresh s b := by
  have hsound := sound_step b hs hof
  constructor
  · intro hcorrect
    apply fresh_of_count b hs he
    intro cur hcur
    have hhandled : (step s b).handled ≠ [] := fun hnil => by
      rw [hsound.stored.mpr hnil] at hcur
      cases hcur
    obtain ⟨r, hone, hcount, -⟩ := hcorrect.row hhandled
    rw [Table.select_key hcur] at hone
    obtain rfl := List.singleton_inj.mp hone
    exact hcount
  · intro hfresh
    exact hsound.correct (exact_step b hs he hfresh)

/-- The deliveries of a firing are all counted, and one of them answers for closing it, in the runs
whose commits find the row as their delivery read it. -/
theorem record_counts_iff (k : Key) (db : Rows) (hfree : db.get k = none) (as : List Step)
    (hof : ∀ a, .call a ∈ as → a.Of k) :
    Along step (fun s b => Correct k (step s b)) (World.start db) as ↔
      Along step Fresh (World.start db) as := by
  have hsound := sound_start hfree
  have hexact := exact_start hfree
  generalize World.start db = s at hsound hexact
  induction as generalizing s with
  | nil => exact Iff.rfl
  | cons b as ih =>
    have hb : ∀ a, b = .call a → a.Of k := fun a h => hof a (h ▸ List.mem_cons_self)
    have hrest := ih fun a ha => hof a (List.mem_cons_of_mem _ ha)
    rw [along_cons, along_cons, correct_step_iff b hsound hexact hb]
    apply and_congr_right
    intro hfresh
    exact hrest _ (sound_step b hsound hb) (exact_step b hsound hexact hfresh)

def cpuHigh (firing : Bool) (now : ℤ) : Alert :=
  ⟨"prod", "f1", firing, some 5, none, [("alertname", "CPUHigh")], [], now⟩

/-- Two repeats and two resolved copies, each pair read before either is written. -/
def crossing : List Step :=
  [.call (cpuHigh true 6), .select 0, .commit 0, .call (cpuHigh true 7), .call (cpuHigh true 8),
    .select 0, .select 1, .commit 0, .commit 0, .call (cpuHigh false 9), .call (cpuHigh false 9),
    .select 0, .select 1, .commit 0, .commit 0]

/-- Five deliveries count as three, and two of them are told they closed the firing. -/
theorem crossing_counts_short :
    ((exec step (World.start .empty) crossing).db.select fun r => r.alert = ("prod", "f1", 5)).map
        Item.receivedCount = [3] ∧
      (exec step (World.start .empty) crossing).handled.map Handled.answer =
        [some .new, some .repeated, some .repeated, some .resolved, some .resolved] := by
  decide

/-- The insert of the second delivery finds the row of the first stored. -/
def racing : List Step :=
  [.call (cpuHigh true 6), .call (cpuHigh false 7), .select 0, .select 1, .commit 0, .commit 0,
    .select 0, .commit 0]

theorem record_counts_iff_racing :
    Along step (fun s b => Correct ("prod", "f1", 5) (step s b)) (World.start .empty) racing :=
  (record_counts_iff ("prod", "f1", 5) .empty rfl racing (by
    intro a ha
    simp only [racing, List.mem_cons, Step.call.injEq, reduceCtorEq, List.not_mem_nil, or_false]
      at ha
    rcases ha with rfl | rfl <;> decide)).mpr (by decide)

end Kubeast.Inbox
