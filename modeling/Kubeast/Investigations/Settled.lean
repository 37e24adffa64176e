import Kubeast.Investigations.Once

/-! What a firing's rows keep to as long as no run ends on a row that was settled behind its back,
and presses queue in the order of their clocks. -/
namespace Kubeast.Investigations
open Inbox Transition

def Status.next : Status → List Status
  | .queued => [.running, .skipped]
  | .running => [.done, .failed, .skipped]
  | .done | .failed | .skipped => []

/-- The step belongs to a press and commits nothing. -/
def Step.keepsRows : Step → Bool
  | .press .. | .lock _ | .look .. | .settle _ false => true
  | _ => false

/-- What the queue owes a firing at a step and in the state after it. -/
structure Lawful (item : Item) (s : World) (a : Step) : Prop where
  once : (step item s a).given.Nodup
  one : ∀ r ∈ (step item s a).rows.rows, ∀ r' ∈ (step item s a).rows.rows,
    AskedFor item r → AskedFor item r' → r.busy = true → r'.busy = true → r = r'
  moves : ∀ r ∈ s.rows.rows, ∃ r' ∈ (step item s a).rows.rows, r'.id = r.id ∧
    (r'.status = r.status ∨ r'.status ∈ r.status.next)
  added : ∀ r' ∈ (step item s a).rows.rows, (∃ r ∈ s.rows.rows, r.id = r'.id) ∨ r'.status = .queued
  quiet : a.keepsRows = true → (step item s a).rows = s.rows

/-- A busy row a person asked for is the newest of the firing. -/
def Newest (item : Item) (rows : Rows) : Prop :=
  ∀ r ∈ rows.rows, AskedFor item r → r.busy = true → ofFiring item r = true ∧
    ∀ x ∈ rows.rows, ofFiring item x = true → x ≠ r → x.receivedAt < r.receivedAt

def Press.waiting : Press → Option ℤ
  | .locked now _ => some now
  | _ => none

/-- The row a worker writes its end on is running. -/
def World.RunsOn (s : World) (w : ℕ) : Prop :=
  ∀ row ∈ s.workers[w]?.bind Worker.run, ∀ r ∈ s.rows.get row.id, r.status = .running

/-- A run ends on a running row, and a press that queues is later than the rows of the firing. -/
def InOrder (item : Item) (s : World) : Step → Prop
  | .finish w .. | .skip w _ => s.RunsOn w
  | .look i _ => (current item s.rows).filter Investigation.busy = none →
      ∀ now ∈ s.presses[i]?.bind Press.waiting, item.startsAt ≤ now ∧
        ∀ r ∈ s.rows.rows, ofFiring item r = true → r.receivedAt < now
  | _ => True

instance (s : World) (w : ℕ) : Decidable (s.RunsOn w) :=
  inferInstanceAs (Decidable (∀ row ∈ s.workers[w]?.bind Worker.run, ∀ r ∈ s.rows.get row.id,
    r.status = .running))

instance (item : Item) (s : World) : (a : Step) → Decidable (InOrder item s a)
  | .finish w .. | .skip w _ => inferInstanceAs (Decidable (s.RunsOn w))
  | .look i _ => inferInstanceAs (Decidable (_ → ∀ now ∈ s.presses[i]?.bind Press.waiting,
      item.startsAt ≤ now ∧ ∀ r ∈ s.rows.rows, ofFiring item r = true → r.receivedAt < now))
  | .press .. | .lock _ | .settle .. | .lockNext .. | .claim .. | .failStaleRunning .. =>
      isTrue trivial

variable {item : Item} {s : World} {a : Step} {r : Investigation} {i : ℕ}

section Rows

theorem busy_of_next {u v : Status} (h : v ∈ u.next) : busyStatuses.contains u = true := by
  cases u with
  | queued => rfl
  | running => rfl
  | done => cases h
  | failed => cases h
  | skipped => cases h

/-- In an orderly step a row stays as it is or takes the next status. -/
theorem status_leaves (hs : Sound s) (hr : r ∈ s.rows.rows) (horder : InOrder item s a) :
    (s.leaves r a).status = r.status ∨ (s.leaves r a).status ∈ r.status.next := by
  have hget := Table.get_of_mem hr
  have hrunning : ∀ (w : ℕ) (row : Investigation), s.workers[w]? = some (.running row) →
      row.id = r.id → s.RunsOn w → r.status = .running := by
    intro w row hw hid hruns
    refine hruns row (by rw [hw]; rfl) r ?_
    rw [hid, hget]
    rfl
  obtain h | ⟨w, now, -, hw, h⟩ | ⟨w, row, hw, hid, ⟨ending, error, now, rfl, h⟩ | ⟨reason, rfl, h⟩⟩ |
    ⟨startedBefore, now, -, hstatus, h⟩ := leaves_cases s r a
  · exact Or.inl (by rw [h])
  · obtain ⟨x, hx, hqueued⟩ := hs.held w r.id hw
    obtain rfl := Option.some.inj (hget.symm.trans hx)
    rw [h, hqueued]
    exact Or.inr (by simp [Status.next, Investigation.claimed])
  · rw [h, hrunning w row hw hid horder]
    right
    cases ending <;> simp [Status.next, Investigation.finished, Ending.status]
  · rw [h, hrunning w row hw hid horder]
    exact Or.inr (by simp [Status.next, Investigation.skipped])
  · rw [h, hstatus]
    exact Or.inr (by simp [Status.next, Investigation.interrupted])

theorem busy_leaves (hs : Sound s) (hr : r ∈ s.rows.rows) (horder : InOrder item s a)
    (hbusy : (s.leaves r a).busy = true) : r.busy = true := by
  rcases status_leaves hs hr horder with h | h
  · rwa [Investigation.busy, h] at hbusy
  · exact busy_of_next h

/-- A busy row a person asked for is the one a press sees. -/
theorem current_eq {rows : Rows} (hnewest : Newest item rows) (hr : r ∈ rows.rows) (hasked : AskedFor item r)
    (hbusy : r.busy = true) : current item rows = some r := by
  obtain ⟨hfiring, hlater⟩ := hnewest r hr hasked hbusy
  have hmem : r ∈ rows.select (ofFiring item) := Table.mem_select.mpr ⟨hr, hfiring⟩
  cases hcurrent : current item rows with
  | none =>
    have hnil := Sorted.newest_eq_none.mp hcurrent
    rw [hnil] at hmem
    cases hmem
  | some c =>
    have hc := Table.mem_select.mp (Sorted.mem_of_newest hcurrent)
    have hle : r.receivedAt ≤ c.receivedAt := Sorted.le_of_newest hcurrent hmem
    by_contra hne
    have hlt := hlater c hc.1 hc.2 fun h => hne (congrArg some h)
    omega

end Rows

/-- What holds while the steps are in order: a row that waits for its audit record is later than the
firing's rows, none of which is a person's that is busy. -/
structure Kept (item : Item) (s : World) : Prop where
  newest : Newest item s.rows
  waiting : ∀ (i : ℕ) (row : Investigation), s.presses[i]? = some (.flushed row) → row.status = .queued ∧
    ofFiring item row = true ∧ s.rows.get row.id = none ∧
    ∀ r ∈ s.rows.rows, (ofFiring item r = true → r.receivedAt < row.receivedAt) ∧
      (AskedFor item r → r.busy = false)

section Steps

theorem newest_step (hs : Sound s) (hk : Kept item s) (hadds : ∀ i, a ≠ .settle i true)
    (horder : InOrder item s a) : Newest item (step item s a).rows := by
  intro r' hr' hasked hbusy
  obtain ⟨r, hr, rfl⟩ := (mem_step hadds).mp hr'
  obtain ⟨-, hreceived, hfiring, hiff⟩ := leaves_kept item s r a
  obtain ⟨hofFiring, hlater⟩ := hk.newest r hr (hiff.mp hasked) (busy_leaves hs hr horder hbusy)
  refine ⟨hfiring.trans hofFiring, ?_⟩
  intro x' hx' hxfiring hne
  obtain ⟨x, hx, rfl⟩ := (mem_step hadds).mp hx'
  obtain ⟨-, hxreceived, hxeq, -⟩ := leaves_kept item s x a
  rw [hreceived, hxreceived]
  exact hlater x hx (hxeq.symm.trans hxfiring) fun h => hne (by rw [h])

/-- A row that waited before a step which adds none still waits. -/
theorem waiting_step (hs : Sound s) (hk : Kept item s) (hadds : ∀ i, a ≠ .settle i true)
    (horder : InOrder item s a) {row : Investigation} (hi : s.presses[i]? = some (.flushed row)) :
    row.status = .queued ∧ ofFiring item row = true ∧ (step item s a).rows.get row.id = none ∧
      ∀ r ∈ (step item s a).rows.rows, (ofFiring item r = true → r.receivedAt < row.receivedAt) ∧
        (AskedFor item r → r.busy = false) := by
  obtain ⟨hqueued, hfiring, hnew, hrows⟩ := hk.waiting i row hi
  refine ⟨hqueued, hfiring, ?_, ?_⟩
  · rw [get_step item hadds, hnew]
    rfl
  · intro r' hr'
    obtain ⟨r, hr, rfl⟩ := (mem_step hadds).mp hr'
    obtain ⟨-, hreceived, heq, hiff⟩ := leaves_kept item s r a
    obtain ⟨hlater, hnone⟩ := hrows r hr
    rw [hreceived, heq, hiff]
    refine ⟨hlater, fun hasked => ?_⟩
    cases hbusy : (s.leaves r a).busy with
    | false => rfl
    | true => exact (busy_leaves hs hr horder hbusy).symm.trans (hnone hasked)

/-- The presses after a step that adds no row. -/
theorem kept_of_presses (hs : Sound s) (hk : Kept item s) (hadds : ∀ i, a ≠ .settle i true)
    (horder : InOrder item s a)
    (hpresses : ∀ (i : ℕ) (row : Investigation), (step item s a).presses[i]? = some (.flushed row) →
      s.presses[i]? = some (.flushed row)) : Kept item (step item s a) :=
  ⟨newest_step hs hk hadds horder, fun i row hi => waiting_step hs hk hadds horder (hpresses i row hi)⟩

theorem flushed_set {p : Press} (hp : ∀ row, p ≠ .flushed row) {j : ℕ} {row : Investigation}
    (h : (s.presses.set i p)[j]? = some (.flushed row)) : s.presses[j]? = some (.flushed row) := by
  rcases eq_or_of_getElem?_set h with ⟨-, h⟩ | ⟨-, h⟩
  · exact absurd h.symm (hp row)
  · exact h

/-- A press that finds no busy row comes later than all rows of the firing. -/
theorem Kept.look (hs : Sound s) (hk : Kept item s) {i : ℕ} {id : String}
    (horder : InOrder item s (.look i id)) : Kept item (s.look item i id) := by
  have hstep := fun hpresses => kept_of_presses hs hk (a := .look i id) nofun horder hpresses
  dsimp only [step] at hstep
  unfold World.look at hstep ⊢
  split
  · next now requestedBy hi =>
    rw [hi] at hstep
    dsimp only at hstep
    split
    · next current hcurrent =>
      rw [hcurrent] at hstep
      exact hstep fun j row h => flushed_set (fun _ => Press.noConfusion) h
    · next hidle =>
      rw [hidle] at hstep
      dsimp only at hstep
      split
      · next hnew =>
        obtain ⟨hstart, hlater⟩ := horder hidle now (by rw [hi]; rfl)
        refine ⟨hk.newest, ?_⟩
        intro j row h
        rcases eq_or_of_getElem?_set h with ⟨-, h⟩ | ⟨-, h⟩
        · obtain rfl := Press.flushed.inj h
          have hfiring : ofFiring item (requested item id now requestedBy) = true := by
            simp [ofFiring, requested, hstart]
          refine ⟨rfl, hfiring, hnew, fun r hr => ⟨hlater r hr, fun hasked => ?_⟩⟩
          cases hbusy : r.busy with
          | false => rfl
          | true =>
            rw [current_eq hk.newest hr hasked hbusy, Option.filter_some_pos hbusy] at hidle
            cases hidle
        · exact hk.waiting j row h
      · exact hk
  · exact hk

/-- The row that waited is the newest. -/
theorem Kept.store (hs : Sound s) (hk : Kept item s) (i : ℕ) : Kept item (s.settle i true) := by
  unfold World.settle
  split
  · next row hi =>
    obtain ⟨-, hfiring, hnew, hrows⟩ := hk.waiting i row hi
    have hmem : ∀ r, r ∈ (s.rows.insertNew row).rows ↔ r = row ∨ r ∈ s.rows.rows := by
      intro r
      rw [Table.insertNew, dif_pos hnew, Table.mem_insert]
    refine ⟨?_, ?_⟩
    · intro r hr hasked hbusy
      rcases (hmem r).mp hr with rfl | hr
      · refine ⟨hfiring, fun x hx hxfiring hne => ?_⟩
        exact (hrows x (((hmem x).mp hx).resolve_left hne)).1 hxfiring
      · rw [(hrows r hr).2 hasked] at hbusy
        cases hbusy
    · intro j row' h
      rcases eq_or_of_getElem?_set h with ⟨-, h⟩ | ⟨hne, h⟩
      · cases h
      · exact absurd (hs.alone i j _ _ hi h rfl rfl) hne
  · exact hk

theorem kept_step_of_order (hs : Sound s) (hk : Kept item s) (horder : InOrder item s a) :
    Kept item (step item s a) := by
  cases a with
  | press now requestedBy =>
    refine kept_of_presses hs hk nofun horder fun j row h => ?_
    dsimp only [step] at h
    rw [List.getElem?_append] at h
    split at h
    · exact h
    · cases List.mem_singleton.mp (List.mem_of_getElem? h)
  | lock i =>
    refine kept_of_presses hs hk nofun horder fun j row h => ?_
    dsimp only [step, World.lock] at h
    split at h
    · split at h
      · exact h
      · exact flushed_set (fun _ => Press.noConfusion) h
    · exact h
  | look i id => exact Kept.look hs hk horder
  | settle i stored =>
    cases stored with
    | true => exact hk.store hs i
    | false =>
      refine kept_of_presses hs hk nofun horder fun j row h => ?_
      dsimp only [step, World.settle] at h
      split at h
      · exact flushed_set (fun _ => Press.noConfusion) h
      · exact h
  | lockNext w id =>
    refine kept_of_presses hs hk nofun horder fun j row h => ?_
    dsimp only [step, World.lockNext] at h
    split at h
    · split at h <;> exact h
    · exact h
  | claim w now =>
    refine kept_of_presses hs hk nofun horder fun j row h => ?_
    dsimp only [step, World.claim] at h
    split at h
    · split at h <;> exact h
    · exact h
  | finish w ending error now =>
    refine kept_of_presses hs hk nofun horder fun j row h => ?_
    dsimp only [step, World.finish] at h
    split at h <;> exact h
  | skip w reason =>
    refine kept_of_presses hs hk nofun horder fun j row h => ?_
    dsimp only [step, World.skip] at h
    split at h <;> exact h
  | failStaleRunning startedBefore now => exact kept_of_presses hs hk nofun horder fun j row h => h

theorem lawful_step (hs : Sound s) (hk : Kept item s) (horder : InOrder item s a) : Lawful item s a := by
  have hsound := sound_step item a hs
  have hkept := kept_step_of_order hs hk horder
  have hstored : ∀ i, a = .settle i true → (step item s a).rows = s.rows ∨
      ∃ row, row.status = .queued ∧ (step item s a).rows = s.rows.insertNew row := by
    intro i ha
    rw [ha]
    cases hi : s.presses[i]? with
    | none => exact Or.inl (by simp [step, World.settle, hi])
    | some p =>
      cases p with
      | flushed row =>
        exact Or.inr ⟨row, (hk.waiting i row hi).1, by simp [step, World.settle, hi]⟩
      | _ => exact Or.inl (by simp [step, World.settle, hi])
  refine ⟨hsound.once, ?_, ?_, ?_, ?_⟩
  · intro r hr r' hr' hasked hasked' hbusy hbusy'
    obtain ⟨hfiring, hlater⟩ := hkept.newest r hr hasked hbusy
    obtain ⟨hfiring', hlater'⟩ := hkept.newest r' hr' hasked' hbusy'
    by_contra hne
    have hlt := hlater r' hr' hfiring' (Ne.symm hne)
    have hlt' := hlater' r hr hfiring hne
    omega
  · intro r hr
    by_cases hadds : ∃ i, a = .settle i true
    · obtain ⟨i, ha⟩ := hadds
      refine ⟨r, ?_, rfl, Or.inl rfl⟩
      obtain h | ⟨row, -, h⟩ := hstored i ha
      · rwa [h]
      · rw [h, Table.insertNew]
        split
        · exact Table.mem_insert.mpr (Or.inr hr)
        · exact hr
    · push Not at hadds
      exact ⟨_, (mem_step hadds).mpr ⟨r, hr, rfl⟩, (leaves_kept item s r a).1, status_leaves hs hr horder⟩
  · intro r' hr'
    by_cases hadds : ∃ i, a = .settle i true
    · obtain ⟨i, ha⟩ := hadds
      obtain h | ⟨row, hqueued, h⟩ := hstored i ha
      · rw [h] at hr'
        exact Or.inl ⟨r', hr', rfl⟩
      · rw [h, Table.insertNew] at hr'
        split at hr'
        · rcases Table.mem_insert.mp hr' with rfl | hr'
          · exact Or.inr hqueued
          · exact Or.inl ⟨r', hr', rfl⟩
        · exact Or.inl ⟨r', hr', rfl⟩
    · push Not at hadds
      obtain ⟨r, hr, rfl⟩ := (mem_step hadds).mp hr'
      exact Or.inl ⟨r, hr, (leaves_kept item s r a).1.symm⟩
  · intro hquiet
    cases a with
    | press now requestedBy => rfl
    | lock i =>
      dsimp only [step, World.lock]
      split
      · split <;> rfl
      · rfl
    | look i id =>
      dsimp only [step, World.look]
      split
      · split
        · rfl
        · split <;> rfl
      · rfl
    | settle i stored =>
      cases stored with
      | true => cases hquiet
      | false =>
        dsimp only [step, World.settle]
        split <;> rfl
    | _ => cases hquiet

end Steps

def cpuHigh : Item where
  cluster := "prod"
  fingerprint := "f1"
  startsAt := 5
  labels := [("alertname", "CPUHigh")]
  annotations := []
  state := .firing
  resolvedAt := none
  firstReceivedAt := 6
  lastReceivedAt := 6
  receivedCount := 1

/-- The first run outlives its limit: its row is failed, a second press queues another, and then the
run ends. -/
def lateEnd : List Step :=
  [.press 10 "ann", .lock 0, .look 0 "inv-1", .settle 0 true, .lockNext 0 "inv-1", .claim 0 11,
    .failStaleRunning 200 300, .press 310 "bob", .lock 1, .look 1 "inv-2", .settle 1 true,
    .finish 0 .done "" 320]

/-- The first run ends in time, and the second press finds it. -/
def timelyEnd : List Step :=
  [.press 10 "ann", .press 11 "bob", .lock 0, .look 0 "inv-1", .lock 1, .settle 0 true, .lock 1,
    .look 1 "inv-2", .lockNext 0 "inv-1", .claim 0 12, .finish 0 .done "" 20]

end Kubeast.Investigations
