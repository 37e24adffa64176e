import Kubeast.Inbox.Record

/-! What deliveries of one firing leave behind, whatever the order of their statements. -/
namespace Kubeast.Inbox
open Transition

/-- A delivery with a `startsAt`, for the row `k`. -/
def Alert.Of (a : Alert) (k : Key) : Prop :=
  a.cluster = k.1 ∧ a.fingerprint = k.2.1 ∧ a.startsAt = some k.2.2

instance (a : Alert) (k : Key) : Decidable (a.Of k) := inferInstanceAs (Decidable (_ ∧ _ ∧ _))

variable {k : Key} {s : World} {a : Alert} {r cur : Item} {i n : ℕ}

section Rows

/-- The alert of a delivery closes the row it was found on. -/
def Alert.closes (a : Alert) (r : Item) : Bool := !a.firing && r.state = .firing

theorem countOn_snd : (a.countOn r).2 = if a.closes r then .resolved else .repeated := by
  unfold Alert.countOn Alert.closes
  split_ifs <;> simp_all

theorem receivedCount_flush : (flush r (a.countOn r).1 cur).receivedCount = r.receivedCount + 1 := by
  unfold Alert.countOn flush written
  split <;> simp

theorem state_flush :
    (flush r (a.countOn r).1 cur).state = if a.closes r then .resolved else cur.state := by
  unfold Alert.countOn Alert.closes flush written
  split <;> simp_all

theorem resolvedAt_flush (h : r.state = .firing → r.resolvedAt = none) :
    (flush r (a.countOn r).1 cur).resolvedAt =
      if a.closes r then some (a.endsAt.getD a.now) else cur.resolvedAt := by
  unfold Alert.countOn Alert.closes flush written
  split
  · next hclose => simp [h hclose.2, hclose.1, hclose.2]
  · next hclose => simp_all

theorem Alert.Of.countsOn (h : a.Of k) (r : Item) : a.countsOn r = true := by
  simp [Alert.countsOn, h.2.2]

theorem Alert.Of.alert_item (h : a.Of k) : a.item.alert = k := by
  simp [Alert.item, Item.alert, h.1, h.2.1, h.2.2]

theorem Alert.Of.rowOf_eq (h : a.Of k) (db : Rows) :
    rowOf db a.cluster a.fingerprint a.startsAt = db.get k := by
  rw [h.1, h.2.1, h.2.2]
  rfl

end Rows

/-- Some delivery handled so far was a resolved one. -/
def World.closed (s : World) : Bool := s.handled.any fun h => !h.alert.firing

/-- What holds in every order of the statements. -/
structure Sound (k : Key) (s : World) : Prop where
  calls : ∀ p ∈ s.pending, p.1.Of k
  retried : ∀ a n, (a, .started n) ∈ s.pending → n ≠ 0 → s.db.get k ≠ none
  missed : ∀ a n, (a, .selected n none) ∈ s.pending → n = 0
  found : ∀ a n r, (a, .selected n (some r)) ∈ s.pending → r.alert = k ∧
    (r.state = .firing → r.resolvedAt = none) ∧
    ∃ cur, s.db.get k = some cur ∧ (r.state = .resolved → cur.state = .resolved)
  stored : s.db.get k = none ↔ s.handled = []
  state : ∀ cur, s.db.get k = some cur → (cur.state = .resolved ↔ s.closed = true) ∧
    (cur.resolvedAt.isSome = true ↔ cur.state = .resolved)
  answered : ∀ h ∈ s.handled, h.answer ≠ none
  new : ∀ h ∈ s.handled, (h.answer = some .new ↔ h.created = true ∧ h.alert.firing = true)
  created : s.handled.countP Handled.created = if s.handled = [] then 0 else 1

section Steps

theorem closed_answer (db : Rows) (h : Handled) :
    (s.answer i db h).closed = (s.closed || !h.alert.firing) := by
  simp [World.closed, World.answer]

/-- What the commit of a delivery of `k` does. -/
theorem commit_cases (hs : Sound k s) (i : ℕ) :
    s.commit i = s ∨
    (∃ a n r, s.pending[i]? = some (a, .selected n (some r)) ∧ s.commit i =
      s.answer i (s.db.update (fun x => x.alert = r.alert) (flush r (a.countOn r).1) (alert_flush _ _))
        ⟨a, some (a.countOn r).2, false⟩) ∨
    ∃ a, s.pending[i]? = some (a, .selected 0 none) ∧
      ((∃ h : s.db.get a.item.alert = none, s.commit i =
        s.answer i (s.db.insert a.item h) ⟨a, some (if a.firing then .new else .resolved), true⟩) ∨
      s.db.get k ≠ none ∧ s.commit i = { s with pending := s.pending.set i (a, .started 1) }) := by
  cases hi : s.pending[i]? with
  | none => exact Or.inl (by simp [World.commit, hi])
  | some p =>
    obtain ⟨a, phase⟩ := p
    have hmem := List.mem_of_getElem? hi
    have hof := hs.calls _ hmem
    cases phase with
    | started n => exact Or.inl (by simp [World.commit, hi])
    | selected n found =>
      right
      cases found with
      | some r =>
        have hcounts : a.countsOn r = true := hof.countsOn r
        exact Or.inl ⟨a, n, r, rfl, by simp [World.commit, hi, Option.filter_some_pos hcounts]⟩
      | none =>
        obtain rfl := hs.missed a n hmem
        refine Or.inr ⟨a, rfl, ?_⟩
        by_cases hfree : s.db.get a.item.alert = none
        · exact Or.inl ⟨hfree, by simp [World.commit, hi, hfree]⟩
        · refine Or.inr ⟨by rwa [hof.alert_item] at hfree, ?_⟩
          simp [World.commit, hi, hfree]

theorem Sound.call (hs : Sound k s) (hof : a.Of k) : Sound k (step s (.call a)) := by
  have hpending : ∀ p ∈ (step s (.call a)).pending, p ∈ s.pending ∨ p = (a, .started 0) := by
    intro p hp
    simpa [step] using hp
  refine ⟨?_, ?_, ?_, ?_, hs.stored, hs.state, hs.answered, hs.new, hs.created⟩
  · intro p hp
    rcases hpending p hp with hp | rfl
    · exact hs.calls p hp
    · exact hof
  · intro b n hp hn
    rcases hpending _ hp with hp | hp
    · exact hs.retried b n hp hn
    · cases hp
      exact absurd rfl hn
  · intro b n hp
    exact hs.missed b n ((hpending _ hp).resolve_right (by simp))
  · intro b n r hp
    exact hs.found b n r ((hpending _ hp).resolve_right (by simp))

theorem Sound.select (hs : Sound k s) (i : ℕ) : Sound k (s.select i) := by
  unfold World.select
  split
  · next a n hi =>
    have hmem := List.mem_of_getElem? hi
    have hof := hs.calls _ hmem
    rw [hof.rowOf_eq]
    refine ⟨?_, ?_, ?_, ?_, hs.stored, hs.state, hs.answered, hs.new, hs.created⟩
    · intro p hp
      rcases List.mem_or_eq_of_mem_set hp with hp | rfl
      · exact hs.calls p hp
      · exact hof
    · intro b m hp
      rcases List.mem_or_eq_of_mem_set hp with hp | hp
      · exact hs.retried b m hp
      · cases hp
    · intro b m hp
      rcases List.mem_or_eq_of_mem_set hp with hp | hp
      · exact hs.missed b m hp
      · obtain ⟨rfl, hphase⟩ := Prod.mk.inj hp
        obtain ⟨rfl, hnone⟩ := Phase.selected.inj hphase
        exact Classical.not_not.mp fun hn => hs.retried b m hmem hn hnone.symm
    · intro b m r hp
      rcases List.mem_or_eq_of_mem_set hp with hp | hp
      · exact hs.found b m r hp
      · obtain ⟨-, hphase⟩ := Prod.mk.inj hp
        obtain ⟨-, hsome⟩ := Phase.selected.inj hphase
        refine ⟨Table.key_of_get hsome.symm, ?_, r, hsome.symm, id⟩
        intro hfiring
        have hnone : ¬ r.resolvedAt.isSome = true := by
          rw [(hs.state r hsome.symm).2, hfiring]
          exact State.noConfusion
        simpa using hnone
  · exact hs

/-- A delivery is answered: the row it leaves is closed when one before it or it itself closes it. -/
theorem Sound.answer (hs : Sound k s) {db : Rows} {h : Handled} {next : Item}
    (hnext : db.get k = some next) (hanswer : h.answer ≠ none)
    (hnew : h.answer = some .new ↔ h.created = true ∧ h.alert.firing = true)
    (hcreated : h.created = true ↔ s.handled = [])
    (hstate : next.state = .resolved ↔ (s.closed || !h.alert.firing) = true)
    (hresolved : next.resolvedAt.isSome = true ↔ next.state = .resolved) :
    Sound k (s.answer i db h) := by
  have hpending : ∀ p ∈ (s.answer i db h).pending, p ∈ s.pending :=
    fun p hp => List.mem_of_mem_eraseIdx hp
  have hget : (s.answer i db h).db.get k = some next := hnext
  refine ⟨fun p hp => hs.calls p (hpending p hp), ?_, fun b n hp => hs.missed b n (hpending _ hp),
    ?_, ?_, ?_, ?_, ?_, ?_⟩
  · intro b n _ _
    rw [hget]
    exact Option.some_ne_none next
  · intro b n r hp
    obtain ⟨hkey, hnone, cur, hcur, hmono⟩ := hs.found b n r (hpending _ hp)
    refine ⟨hkey, hnone, next, hget, fun hr => hstate.mpr ?_⟩
    rw [((hs.state cur hcur).1).mp (hmono hr), Bool.true_or]
  · rw [hget]
    simp [World.answer]
  · intro cur hcur
    obtain rfl := Option.some.inj (hget.symm.trans hcur)
    rw [closed_answer]
    exact ⟨hstate, hresolved⟩
  · intro x hx
    rcases List.mem_append.mp hx with hx | hx
    · exact hs.answered x hx
    · obtain rfl := List.mem_singleton.mp hx
      exact hanswer
  · intro x hx
    rcases List.mem_append.mp hx with hx | hx
    · exact hs.new x hx
    · obtain rfl := List.mem_singleton.mp hx
      exact hnew
  · have hcount := hs.created
    dsimp only [World.answer]
    rw [List.countP_append, List.countP_singleton, hcount]
    by_cases hnil : s.handled = []
    · simp [hnil, hcreated.mpr hnil]
    · simp [hnil, mt hcreated.mp hnil]

theorem get_update_of_found (hkey : r.alert = k) (hcur : s.db.get k = some cur)
    (held : Item) : (s.db.update (fun x => x.alert = r.alert) (flush r held) (alert_flush _ _)).get k =
      some (flush r held cur) := by
  rw [Table.get_update, hcur, Option.map_some, hkey, Table.key_of_get hcur]
  simp

theorem Sound.update (hs : Sound k s) (hi : s.pending[i]? = some (a, .selected n (some r))) :
    Sound k (s.answer i
      (s.db.update (fun x => x.alert = r.alert) (flush r (a.countOn r).1) (alert_flush _ _))
      ⟨a, some (a.countOn r).2, false⟩) := by
  obtain ⟨hkey, hnone, cur, hcur, hmono⟩ := hs.found a n r (List.mem_of_getElem? hi)
  obtain ⟨hstate, hresolved⟩ := hs.state cur hcur
  have hhandled : s.handled ≠ [] := fun hnil => by
    rw [hs.stored.mpr hnil] at hcur
    cases hcur
  apply hs.answer (get_update_of_found hkey hcur _) (by simp)
  · rw [countOn_snd]
    split <;> simp
  · simpa using hhandled
  · rw [state_flush]
    by_cases hcloses : a.closes r = true
    · obtain ⟨hfiring, -⟩ : a.firing = false ∧ r.state = .firing := by simpa [Alert.closes] using hcloses
      simp [hcloses, hfiring]
    · rw [if_neg hcloses, hstate]
      cases hfiring : a.firing with
      | true => simp
      | false =>
        have hread : r.state = .resolved := by
          cases hr : r.state with
          | firing => exact absurd (by simp [Alert.closes, hfiring, hr]) hcloses
          | resolved => rfl
        simp [hstate.mp (hmono hread)]
  · rw [state_flush, resolvedAt_flush hnone]
    split
    · simp
    · exact hresolved

theorem Sound.insert (hs : Sound k s) (hi : s.pending[i]? = some (a, .selected n none))
    (h : s.db.get a.item.alert = none) : Sound k (s.answer i (s.db.insert a.item h)
      ⟨a, some (if a.firing then .new else .resolved), true⟩) := by
  have hof := hs.calls _ (List.mem_of_getElem? hi)
  have hget : (s.db.insert a.item h).get k = some a.item := by
    rw [Table.get_insert, if_pos hof.alert_item]
  rw [hof.alert_item] at h
  have hnil := hs.stored.mp h
  apply hs.answer hget (by simp)
  · cases a.firing <;> simp
  · simpa using hnil
  · have hopen : s.closed = false := by simp [World.closed, hnil]
    rw [hopen]
    cases hfiring : a.firing <;> simp [Alert.item, hfiring]
  · cases hfiring : a.firing <;> simp [Alert.item, hfiring]

theorem Sound.again (hs : Sound k s) (hi : s.pending[i]? = some (a, .selected n none))
    (hstored : s.db.get k ≠ none) :
    Sound k { s with pending := s.pending.set i (a, .started 1) } := by
  have hof := hs.calls _ (List.mem_of_getElem? hi)
  refine ⟨?_, ?_, ?_, ?_, hs.stored, hs.state, hs.answered, hs.new, hs.created⟩
  · intro p hp
    rcases List.mem_or_eq_of_mem_set hp with hp | rfl
    · exact hs.calls p hp
    · exact hof
  · exact fun b m _ _ => hstored
  · intro b m hp
    exact hs.missed b m ((List.mem_or_eq_of_mem_set hp).resolve_right (by simp))
  · intro b m r hp
    exact hs.found b m r ((List.mem_or_eq_of_mem_set hp).resolve_right (by simp))

theorem Sound.commit (hs : Sound k s) (i : ℕ) : Sound k (s.commit i) := by
  obtain h | ⟨a, n, r, hi, h⟩ | ⟨a, hi, ⟨hfree, h⟩ | ⟨hstored, h⟩⟩ := commit_cases hs i
  · rwa [h]
  · rw [h]
    exact hs.update hi
  · rw [h]
    exact hs.insert hi hfree
  · rw [h]
    exact hs.again hi hstored

theorem sound_step (b : Step) (hs : Sound k s) (hof : ∀ a, b = .call a → a.Of k) : Sound k (step s b) := by
  cases b with
  | call a => exact hs.call (hof a rfl)
  | select i => exact hs.select i
  | commit i => exact hs.commit i

theorem sound_exec (as : List Step) (hs : Sound k s) (hof : ∀ a, .call a ∈ as → a.Of k) :
    Sound k (exec step s as) := by
  induction as generalizing s with
  | nil => exact hs
  | cons b as ih =>
    exact ih (sound_step b hs fun a hb => hof a (hb ▸ List.mem_cons_self))
      fun a ha => hof a (List.mem_cons_of_mem _ ha)

theorem sound_start {db : Rows} (h : db.get k = none) : Sound k (World.start db) where
  calls _ h := by cases h
  retried _ _ h := by cases h
  missed _ _ h := by cases h
  found _ _ _ h := by cases h
  stored := by simpa [World.start] using h
  state cur hcur := by
    rw [World.start, h] at hcur
    cases hcur
  answered _ h := by cases h
  new _ h := by cases h
  created := rfl

end Steps

theorem Sound.row (hs : Sound k s) (h : s.handled ≠ []) : ∃ r, s.db.get k = some r ∧
    s.db.select (fun x => x.alert = k) = [r] ∧
    ((∃ h ∈ s.handled, h.alert.firing = false) → r.state = .resolved ∧ r.resolvedAt.isSome = true) := by
  obtain ⟨r, hr⟩ := Option.ne_none_iff_exists'.mp (mt hs.stored.mp h)
  obtain ⟨hstate, hresolved⟩ := hs.state r hr
  refine ⟨r, hr, Table.select_key hr, ?_⟩
  rintro ⟨x, hx, hfiring⟩
  have hclosed : s.closed = true := List.any_eq_true.mpr ⟨x, hx, by simp [hfiring]⟩
  exact ⟨hstate.mpr hclosed, hresolved.mpr (hstate.mpr hclosed)⟩

/-- Whoever stored the row answers as the first. -/
theorem Sound.newOnce (hs : Sound k s) (h : s.handled ≠ []) :
    s.handled.countP (fun h => h.answer = some .new || (h.created && !h.alert.firing)) = 1 := by
  have hcreated := hs.created
  rw [if_neg h] at hcreated
  rw [← hcreated]
  apply List.countP_congr
  intro x hx
  have hnew := hs.new x hx
  cases hfiring : x.alert.firing <;> simp_all

/-- In every order of the statements the deliveries share one row, nothing opens it again after a
resolved one, and one delivery stored it. -/
theorem never_reopened (k : Key) (db : Rows) (hfree : db.get k = none) (as : List Step)
    (hof : ∀ a, .call a ∈ as → a.Of k) (hsome : (exec step (World.start db) as).handled ≠ []) :
    ∃ r, (exec step (World.start db) as).db.select (fun x => x.alert = k) = [r] ∧
      ((∃ h ∈ (exec step (World.start db) as).handled, h.alert.firing = false) →
        r.state = .resolved ∧ r.resolvedAt.isSome = true) := by
  have hsound := sound_exec as (sound_start hfree) hof
  obtain ⟨r, -, hone, hstate⟩ := hsound.row hsome
  exact ⟨r, hone, hstate⟩

end Kubeast.Inbox
