import Kubeast.Investigations.Queue

/-! What a step leaves of a row, and that no row is claimed twice whatever the order of the
statements. -/
namespace Kubeast.Investigations
open Inbox Transition

/-- A person asked for the row on this firing. -/
def AskedFor (item : Item) (r : Investigation) : Prop :=
  r.cluster = item.cluster ∧ r.fingerprint = item.fingerprint ∧
    r.startsAt = some item.startsAt ∧ r.requestedBy ≠ ""

instance (item : Item) (r : Investigation) : Decidable (AskedFor item r) :=
  inferInstanceAs (Decidable (_ ∧ _ ∧ _ ∧ _))

def Worker.run : Worker → Option Investigation
  | .running row => some row
  | .idle | .claiming _ => none

variable {item : Item} {s : World} {a : Step} {r : Investigation} {id : String} {i w : ℕ}

section Rows

/-- What a step that adds no row leaves of one. -/
def World.leaves (s : World) (r : Investigation) : Step → Investigation
  | .claim w now => if s.workers[w]? = some (.claiming r.id) then r.claimed now else r
  | .finish w ending error now =>
    if (s.workers[w]?.bind Worker.run).any (·.id = r.id) then r.finished ending error now else r
  | .skip w reason =>
    if (s.workers[w]?.bind Worker.run).any (·.id = r.id) then r.skipped reason else r
  | .failStaleRunning startedBefore now =>
    if r.status = .running && r.startedAt.any (· < startedBefore) then r.interrupted now else r
  | _ => r

theorem leaves_cases (s : World) (r : Investigation) (a : Step) : s.leaves r a = r ∨
    (∃ w now, a = .claim w now ∧ s.workers[w]? = some (.claiming r.id) ∧ s.leaves r a = r.claimed now) ∨
    (∃ (w : ℕ) (row : Investigation), s.workers[w]? = some (.running row) ∧ row.id = r.id ∧
      ((∃ ending error now, a = .finish w ending error now ∧ s.leaves r a = r.finished ending error now) ∨
        ∃ reason, a = .skip w reason ∧ s.leaves r a = r.skipped reason)) ∨
    ∃ startedBefore now, a = .failStaleRunning startedBefore now ∧ r.status = .running ∧
      s.leaves r a = r.interrupted now := by
  have hrun : ∀ w : ℕ, (s.workers[w]?.bind Worker.run).any (·.id = r.id) = true →
      ∃ row : Investigation, s.workers[w]? = some (.running row) ∧ row.id = r.id := by
    intro w h
    obtain ⟨row, hrow, hid⟩ := (Option.any_eq_true _ _).mp h
    obtain ⟨worker, hw, hworker⟩ := Option.bind_eq_some_iff.mp hrow
    cases worker with
    | running row' =>
      obtain rfl := Option.some.inj hworker
      exact ⟨row', hw, of_decide_eq_true hid⟩
    | idle => cases hworker
    | claiming id => cases hworker
  cases a with
  | claim w now =>
    by_cases h : s.workers[w]? = some (.claiming r.id)
    · exact Or.inr (Or.inl ⟨w, now, rfl, h, if_pos h⟩)
    · exact Or.inl (if_neg h)
  | finish w ending error now =>
    by_cases h : (s.workers[w]?.bind Worker.run).any (·.id = r.id) = true
    · obtain ⟨row, hrow, hid⟩ := hrun w h
      exact Or.inr (Or.inr (Or.inl ⟨w, row, hrow, hid, Or.inl ⟨ending, error, now, rfl, if_pos h⟩⟩))
    · exact Or.inl (if_neg h)
  | skip w reason =>
    by_cases h : (s.workers[w]?.bind Worker.run).any (·.id = r.id) = true
    · obtain ⟨row, hrow, hid⟩ := hrun w h
      exact Or.inr (Or.inr (Or.inl ⟨w, row, hrow, hid, Or.inr ⟨reason, rfl, if_pos h⟩⟩))
    · exact Or.inl (if_neg h)
  | failStaleRunning startedBefore now =>
    by_cases h : (r.status = .running && r.startedAt.any (· < startedBefore)) = true
    · have hrunning : r.status = .running := of_decide_eq_true (Bool.and_eq_true_iff.mp h).1
      exact Or.inr (Or.inr (Or.inr ⟨startedBefore, now, rfl, hrunning, if_pos h⟩))
    · exact Or.inl (if_neg h)
  | _ => exact Or.inl rfl

/-- Of the columns only those that tell how a run goes are written again. -/
theorem leaves_kept (item : Item) (s : World) (r : Investigation) (a : Step) : (s.leaves r a).id = r.id ∧
    (s.leaves r a).receivedAt = r.receivedAt ∧ ofFiring item (s.leaves r a) = ofFiring item r ∧
    (AskedFor item (s.leaves r a) ↔ AskedFor item r) := by
  obtain h | ⟨w, now, -, -, h⟩ | ⟨w, row, -, -, ⟨ending, error, now, -, h⟩ | ⟨reason, -, h⟩⟩ |
    ⟨startedBefore, now, -, -, h⟩ := leaves_cases s r a
  all_goals
    rw [h]
    exact ⟨rfl, rfl, rfl, Iff.rfl⟩

/-- Nothing goes back into the queue. -/
theorem leaves_left (hr : r.status ≠ .queued) : (s.leaves r a).status ≠ .queued := by
  obtain h | ⟨w, now, -, -, h⟩ | ⟨w, row, -, -, ⟨ending, error, now, -, h⟩ | ⟨reason, -, h⟩⟩ |
    ⟨startedBefore, now, -, -, h⟩ := leaves_cases s r a
  · rwa [h]
  · rw [h]
    exact Status.noConfusion
  · rw [h]
    cases ending <;> exact Status.noConfusion
  · rw [h]
    exact Status.noConfusion
  · rw [h]
    exact Status.noConfusion

theorem map_id_leaves {o : Option Investigation} (h : ∀ r, s.leaves r a = r) : o = o.map (s.leaves · a) := by
  cases o with
  | none => rfl
  | some r => exact congrArg some (h r).symm

/-- The rows after a step that commits no new one. -/
theorem get_step (item : Item) (hadds : ∀ i, a ≠ .settle i true) (id : String) :
    (step item s a).rows.get id = (s.rows.get id).map (s.leaves · a) := by
  have hrun : ∀ (w : ℕ) (f : Investigation → Investigation) (hf : ∀ r, (f r).id = r.id) (row : Investigation),
      s.workers[w]? = some (.running row) →
      (s.rows.update (fun x => x.id = row.id) f hf).get id = (s.rows.get id).map fun r =>
        if (s.workers[w]?.bind Worker.run).any (·.id = r.id) then f r else r := by
    intro w f hf row hw
    rw [Table.get_update, hw]
    cases s.rows.get id with
    | none => rfl
    | some r => simp [Worker.run, eq_comm]
  have hidle : ∀ w : ℕ, (∀ row, s.workers[w]? ≠ some (.running row)) →
      s.workers[w]?.bind Worker.run = none := by
    intro w hw
    cases hworker : s.workers[w]? with
    | none => rfl
    | some worker =>
      cases worker with
      | running row => exact absurd hworker (hw row)
      | idle => rfl
      | claiming id => rfl
  cases a with
  | settle i stored =>
    cases stored with
    | true => exact absurd rfl (hadds i)
    | false =>
      refine Eq.trans ?_ (map_id_leaves fun _ => rfl)
      dsimp only [step, World.settle]
      split <;> rfl
  | claim w now =>
    dsimp only [step, World.claim]
    split
    · next locked hw =>
      split
      · next row hrow =>
        dsimp only
        rw [Table.get_update]
        cases s.rows.get id with
        | none => rfl
        | some r => simp [World.leaves, hw, eq_comm]
      · next hrow =>
        cases hr : s.rows.get id with
        | none => rfl
        | some r =>
          have hne : locked ≠ r.id := by
            rintro rfl
            rw [Table.key_of_get hr, hr] at hrow
            cases hrow
          simp [World.leaves, hw, hne]
    · next hw => exact map_id_leaves fun r => if_neg (hw r.id)
  | finish w ending error now =>
    dsimp only [step, World.finish]
    split
    · next row hw => exact hrun w _ (Investigation.id_finished ending error now) row hw
    · next hw => exact map_id_leaves fun r => by simp [World.leaves, hidle w hw]
  | skip w reason =>
    dsimp only [step, World.skip]
    split
    · next row hw => exact hrun w _ (Investigation.id_skipped reason) row hw
    · next hw => exact map_id_leaves fun r => by simp [World.leaves, hidle w hw]
  | failStaleRunning startedBefore now => exact Table.get_update (Investigation.id_interrupted now)
  | press now requestedBy => exact map_id_leaves fun _ => rfl
  | lock i =>
    refine Eq.trans ?_ (map_id_leaves fun _ => rfl)
    dsimp only [step, World.lock]
    split
    · split <;> rfl
    · rfl
  | look i newId =>
    refine Eq.trans ?_ (map_id_leaves fun _ => rfl)
    dsimp only [step, World.look]
    split
    · split
      · rfl
      · split <;> rfl
    · rfl
  | lockNext w locked =>
    refine Eq.trans ?_ (map_id_leaves fun _ => rfl)
    dsimp only [step, World.lockNext]
    split
    · split <;> rfl
    · rfl

theorem mem_step (hadds : ∀ i, a ≠ .settle i true) {r' : Investigation} :
    r' ∈ (step item s a).rows.rows ↔ ∃ r ∈ s.rows.rows, s.leaves r a = r' := by
  constructor
  · intro h
    have hget := Table.get_of_mem h
    rw [get_step item hadds] at hget
    obtain ⟨r, hr, rfl⟩ := Option.map_eq_some_iff.mp hget
    exact ⟨r, Table.mem_of_get hr, rfl⟩
  · rintro ⟨r, hr, rfl⟩
    apply Table.mem_of_get (k := (s.leaves r a).id)
    rw [get_step item hadds, (leaves_kept item s r a).1, Table.get_of_mem hr]
    rfl

end Rows

/-- What holds in every order of the statements. -/
structure Sound (s : World) : Prop where
  apart : ∀ (w w' : ℕ) (id : String), s.workers[w]? = some (.claiming id) →
    s.workers[w']? = some (.claiming id) → w = w'
  held : ∀ (w : ℕ) (id : String), s.workers[w]? = some (.claiming id) →
    ∃ r, s.rows.get id = some r ∧ r.status = .queued
  run : ∀ (w : ℕ) (row : Investigation), s.workers[w]? = some (.running row) → row.id ∈ s.given
  left : ∀ id ∈ s.given, ∃ r, s.rows.get id = some r ∧ r.status ≠ .queued
  once : s.given.Nodup
  alone : ∀ (i j : ℕ) (p q : Press), s.presses[i]? = some p → s.presses[j]? = some q →
    p.holds = true → q.holds = true → i = j

section Claims

/-- A queued row stays as it is but for its own claim. -/
theorem leaves_queued (hs : Sound s) (hr : s.rows.get id = some r) (hqueued : r.status = .queued)
    (hclaim : ∀ w now, a = .claim w now → s.workers[w]? ≠ some (.claiming id)) : s.leaves r a = r := by
  have hid := Table.key_of_get hr
  obtain h | ⟨w, now, ha, hw, -⟩ | ⟨w, row, hw, hrow, -⟩ | ⟨startedBefore, now, -, hrunning, -⟩ :=
    leaves_cases s r a
  · exact h
  · rw [hid] at hw
    exact absurd hw (hclaim w now ha)
  · obtain ⟨x, hx, hleft⟩ := hs.left row.id (hs.run w row hw)
    rw [hrow, hid, hr] at hx
    obtain rfl := Option.some.inj hx
    exact absurd hqueued hleft
  · rw [hqueued] at hrunning
    cases hrunning

/-- A step in which no worker takes a row on, and no row comes out of the queue. -/
theorem Sound.rows {t : World} (hs : Sound s)
    (hworkers : ∀ (w : ℕ) (x : Worker), t.workers[w]? = some x → x = .idle ∨ s.workers[w]? = some x)
    (hgiven : t.given = s.given)
    (hkept : ∀ id r, s.rows.get id = some r → ∃ r', t.rows.get id = some r' ∧
      (r.status = .queued → r' = r) ∧ (r.status ≠ .queued → r'.status ≠ .queued))
    (halone : ∀ (i j : ℕ) (p q : Press), t.presses[i]? = some p → t.presses[j]? = some q →
      p.holds = true → q.holds = true → i = j) : Sound t := by
  have hold : ∀ (w : ℕ) (x : Worker), t.workers[w]? = some x → x ≠ .idle → s.workers[w]? = some x :=
    fun w x hw hx => (hworkers w x hw).resolve_left hx
  refine ⟨?_, ?_, ?_, ?_, ?_, halone⟩
  · exact fun w w' id hw hw' => hs.apart w w' id (hold w _ hw nofun) (hold w' _ hw' nofun)
  · intro w id hw
    obtain ⟨r, hr, hqueued⟩ := hs.held w id (hold w _ hw nofun)
    obtain ⟨r', hr', hsame, -⟩ := hkept id r hr
    obtain rfl := hsame hqueued
    exact ⟨r', hr', hqueued⟩
  · intro w row hw
    rw [hgiven]
    exact hs.run w row (hold w _ hw nofun)
  · intro id hid
    rw [hgiven] at hid
    obtain ⟨r, hr, hleft⟩ := hs.left id hid
    obtain ⟨r', hr', -, hstays⟩ := hkept id r hr
    exact ⟨r', hr', hstays hleft⟩
  · rw [hgiven]
    exact hs.once

theorem kept_step (item : Item) (hs : Sound s) (hadds : ∀ i, a ≠ .settle i true) (hclaim : ∀ w now, a ≠ .claim w now)
    (id : String) (r : Investigation) (hr : s.rows.get id = some r) :
    ∃ r', (step item s a).rows.get id = some r' ∧ (r.status = .queued → r' = r) ∧
      (r.status ≠ .queued → r'.status ≠ .queued) := by
  refine ⟨s.leaves r a, ?_, ?_, leaves_left⟩
  · rw [get_step item hadds, hr]
    rfl
  · intro hqueued
    exact leaves_queued hs hr hqueued fun w now ha => absurd ha (hclaim w now)

/-- A press goes on without taking the inbox row. -/
theorem alone_set (hs : Sound s) {p q : Press} (hp : s.presses[i]? = some p)
    (hholds : q.holds = true → p.holds = true) (l j : ℕ) (x y : Press)
    (hx : (s.presses.set i q)[l]? = some x) (hy : (s.presses.set i q)[j]? = some y)
    (hxholds : x.holds = true) (hyholds : y.holds = true) : l = j := by
  rcases eq_or_of_getElem?_set hx with ⟨rfl, rfl⟩ | ⟨-, hx'⟩
  · rcases eq_or_of_getElem?_set hy with ⟨rfl, rfl⟩ | ⟨-, hy'⟩
    · rfl
    · exact hs.alone i j p y hp hy' (hholds hxholds) hyholds
  · rcases eq_or_of_getElem?_set hy with ⟨rfl, rfl⟩ | ⟨-, hy'⟩
    · exact hs.alone l i x p hx' hp hxholds (hholds hyholds)
    · exact hs.alone l j x y hx' hy' hxholds hyholds

theorem Sound.press (hs : Sound s) (now : ℤ) (requestedBy : String) :
    Sound (step item s (.press now requestedBy)) := by
  refine ⟨hs.apart, hs.held, hs.run, hs.left, hs.once, ?_⟩
  have hold : ∀ (l : ℕ) (x : Press), (s.presses ++ [Press.pressed now requestedBy])[l]? = some x →
      x.holds = true → s.presses[l]? = some x := by
    intro l x hx hholds
    rw [List.getElem?_append] at hx
    split at hx
    · exact hx
    · obtain rfl := List.mem_singleton.mp (List.mem_of_getElem? hx)
      cases hholds
  exact fun l j x y hx hy hxholds hyholds =>
    hs.alone l j x y (hold l x hx hxholds) (hold j y hy hyholds) hxholds hyholds

theorem Sound.lock (hs : Sound s) (i : ℕ) : Sound (s.lock i) := by
  unfold World.lock
  split
  · split
    · exact hs
    · next hfree =>
      refine ⟨hs.apart, hs.held, hs.run, hs.left, hs.once, ?_⟩
      have hnone : ∀ (l : ℕ) (x : Press), s.presses[l]? = some x → x.holds = true → False :=
        fun l x hx hholds => hfree (List.any_eq_true.mpr ⟨x, List.mem_of_getElem? hx, hholds⟩)
      intro l j x y hx hy hxholds hyholds
      rcases eq_or_of_getElem?_set hx with ⟨hl, -⟩ | ⟨-, hx'⟩
      · rcases eq_or_of_getElem?_set hy with ⟨hj, -⟩ | ⟨-, hy'⟩
        · exact hl.symm.trans hj
        · exact (hnone j y hy' hyholds).elim
      · exact (hnone l x hx' hxholds).elim
  · exact hs

theorem Sound.look (hs : Sound s) (i : ℕ) (id : String) : Sound (s.look item i id) := by
  unfold World.look
  split
  · next hi =>
    split
    · exact ⟨hs.apart, hs.held, hs.run, hs.left, hs.once, alone_set hs hi fun _ => rfl⟩
    · split
      · exact ⟨hs.apart, hs.held, hs.run, hs.left, hs.once, alone_set hs hi fun _ => rfl⟩
      · exact hs
  · exact hs

theorem Sound.settle (hs : Sound s) (i : ℕ) (stored : Bool) : Sound (s.settle i stored) := by
  unfold World.settle
  split
  · next row hi =>
    split
    · refine hs.rows (fun w x hw => Or.inr hw) rfl ?_ (alone_set hs hi fun _ => rfl)
      intro id r hr
      refine ⟨r, ?_, fun _ => rfl, fun hleft => hleft⟩
      rw [Table.get_insertNew, hr]
      split <;> rfl
    · exact ⟨hs.apart, hs.held, hs.run, hs.left, hs.once, alone_set hs hi fun _ => rfl⟩
  · exact hs

theorem Sound.lockNext (hs : Sound s) (w : ℕ) (id : String) : Sound (s.lockNext w id) := by
  unfold World.lockNext
  split
  · next r hw hr =>
    split
    · next htakes =>
      obtain ⟨hqueued, hfree, -⟩ := htakes
      have hother : ∀ v : ℕ, s.workers[v]? ≠ some (.claiming id) := by
        intro v hv
        have hlocked : s.isLocked id = true :=
          List.any_eq_true.mpr ⟨_, List.mem_of_getElem? hv, decide_eq_true rfl⟩
        rw [hfree] at hlocked
        cases hlocked
      refine ⟨?_, ?_, ?_, hs.left, hs.once, hs.alone⟩
      · intro v v' id' hv hv'
        rcases eq_or_of_getElem?_set hv with ⟨h, hid⟩ | ⟨-, hold⟩
        · obtain rfl := Worker.claiming.inj hid
          rcases eq_or_of_getElem?_set hv' with ⟨h', -⟩ | ⟨-, hold'⟩
          · exact h.symm.trans h'
          · exact absurd hold' (hother v')
        · rcases eq_or_of_getElem?_set hv' with ⟨h', hid⟩ | ⟨-, hold'⟩
          · obtain rfl := Worker.claiming.inj hid
            exact absurd hold (hother v)
          · exact hs.apart v v' id' hold hold'
      · intro v id' hv
        rcases eq_or_of_getElem?_set hv with ⟨-, hid⟩ | ⟨-, hv⟩
        · obtain rfl := Worker.claiming.inj hid
          exact ⟨r, hr, hqueued⟩
        · exact hs.held v id' hv
      · intro v row hv
        rcases eq_or_of_getElem?_set hv with ⟨-, hid⟩ | ⟨-, hv⟩
        · cases hid
        · exact hs.run v row hv
    · exact hs
  · exact hs

/-- The row a worker is given was never given before. -/
theorem Sound.claim (hs : Sound s) (w : ℕ) (now : ℤ) : Sound (step item s (.claim w now)) := by
  cases hw : s.workers[w]? with
  | none => simpa [step, World.claim, hw] using hs
  | some worker =>
    cases worker with
    | idle => simpa [step, World.claim, hw] using hs
    | running row => simpa [step, World.claim, hw] using hs
    | claiming id =>
      obtain ⟨r, hr, hqueued⟩ := hs.held w id hw
      have hnew : id ∉ s.given := by
        intro hgiven
        obtain ⟨x, hx, hleft⟩ := hs.left id hgiven
        rw [hr] at hx
        obtain rfl := Option.some.inj hx
        exact hleft hqueued
      have hget := get_step item (s := s) (a := .claim w now) nofun
      have hworkers : (step item s (.claim w now)).workers = s.workers.set w (.running (r.claimed now)) := by
        simp [step, World.claim, hw, hr]
      have hgiven : (step item s (.claim w now)).given = s.given ++ [id] := by
        simp [step, World.claim, hw, hr]
      have hpresses : (step item s (.claim w now)).presses = s.presses := by
        simp [step, World.claim, hw, hr]
      have hid := Table.key_of_get hr
      generalize step item s (.claim w now) = t at hget hworkers hgiven hpresses ⊢
      have hold : ∀ (v : ℕ) (id' : String), t.workers[v]? = some (.claiming id') →
          w ≠ v ∧ s.workers[v]? = some (.claiming id') := by
        intro v id' hv
        rw [hworkers] at hv
        rcases eq_or_of_getElem?_set hv with ⟨-, h⟩ | h
        · cases h
        · exact h
      refine ⟨?_, ?_, ?_, ?_, ?_, ?_⟩
      · exact fun v v' id' hv hv' => hs.apart v v' id' (hold v id' hv).2 (hold v' id' hv').2
      · intro v id' hv
        obtain ⟨hne, hv⟩ := hold v id' hv
        obtain ⟨x, hx, hxqueued⟩ := hs.held v id' hv
        refine ⟨x, ?_, hxqueued⟩
        rw [hget, hx, Option.map_some, leaves_queued hs hx hxqueued]
        intro w' now' ha hw'
        obtain ⟨rfl, -⟩ := Step.claim.inj ha
        exact hne (hs.apart w v id' hw' hv)
      · intro v row hv
        rw [hworkers] at hv
        rw [hgiven]
        rcases eq_or_of_getElem?_set hv with ⟨-, h⟩ | ⟨-, hv⟩
        · obtain rfl := Worker.running.inj h
          exact List.mem_append_right _ (List.mem_singleton.mpr hid)
        · exact List.mem_append_left _ (hs.run v row hv)
      · intro id' hid'
        rw [hgiven] at hid'
        rw [hget]
        rcases List.mem_append.mp hid' with hid' | hid'
        · obtain ⟨x, hx, hleft⟩ := hs.left id' hid'
          exact ⟨_, by rw [hx]; rfl, leaves_left hleft⟩
        · obtain rfl := List.mem_singleton.mp hid'
          refine ⟨_, by rw [hr]; rfl, ?_⟩
          have hclaimed : s.leaves r (.claim w now) = r.claimed now := if_pos (by rwa [hid])
          dsimp only
          rw [hclaimed]
          exact Status.noConfusion
      · rw [hgiven]
        exact List.nodup_append.mpr ⟨hs.once, List.nodup_singleton _, by
          intro x hx y hy hxy
          obtain rfl := List.mem_singleton.mp hy
          exact hnew (hxy ▸ hx)⟩
      · rw [hpresses]
        exact hs.alone

theorem sound_step (item : Item) (a : Step) (hs : Sound s) : Sound (step item s a) := by
  have hidle : ∀ (w : ℕ) (v : ℕ) (x : Worker), (s.workers.set w .idle)[v]? = some x →
      x = .idle ∨ s.workers[v]? = some x := by
    intro w v x hx
    rcases eq_or_of_getElem?_set hx with ⟨-, hx⟩ | ⟨-, hx⟩
    · exact Or.inl hx
    · exact Or.inr hx
  cases a with
  | press now requestedBy => exact hs.press now requestedBy
  | lock i => exact hs.lock i
  | look i id => exact hs.look i id
  | settle i stored => exact hs.settle i stored
  | lockNext w id => exact hs.lockNext w id
  | claim w now => exact hs.claim w now
  | finish w ending error now =>
    have hkept := kept_step item (a := .finish w ending error now) hs nofun nofun
    dsimp only [step, World.finish] at hkept ⊢
    split
    · next row hw =>
      rw [hw] at hkept
      exact hs.rows (hidle w) rfl hkept hs.alone
    · exact hs
  | skip w reason =>
    have hkept := kept_step item (a := .skip w reason) hs nofun nofun
    dsimp only [step, World.skip] at hkept ⊢
    split
    · next row hw =>
      rw [hw] at hkept
      exact hs.rows (hidle w) rfl hkept hs.alone
    · exact hs
  | failStaleRunning startedBefore now =>
    exact hs.rows (fun w x hw => Or.inr hw) rfl
      (kept_step item (a := .failStaleRunning startedBefore now) hs nofun nofun) hs.alone

theorem sound_start (rows : Rows) (replicas : ℕ) : Sound (World.start rows replicas) := by
  have hidle : ∀ (w : ℕ) (x : Worker), (World.start rows replicas).workers[w]? = some x → x = .idle :=
    fun w x hw => List.eq_of_mem_replicate (List.mem_of_getElem? hw)
  refine ⟨?_, ?_, ?_, ?_, List.nodup_nil, ?_⟩
  · intro w w' id hw
    cases hidle w _ hw
  · intro w id hw
    cases hidle w _ hw
  · intro w row hw
    cases hidle w _ hw
  · intro id hid
    cases hid
  · intro i j p q hp
    cases List.mem_of_getElem? hp

end Claims

/-- No row is given to two workers, or twice to one, in any order of the statements. -/
theorem claimed_once (item : Item) (rows : Rows) (replicas : ℕ) (as : List Step) :
    (exec (step item) (World.start rows replicas) as).given.Nodup :=
  (exec_invariant (fun _ a hs _ => sound_step item a hs) (sound_start rows replicas)
    (Along.of_forall (G := fun _ _ => True) fun _ _ => trivial)).once

end Kubeast.Investigations
