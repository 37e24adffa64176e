import Kubeast.Signals.FromPoll

/-! That polling tells of each change of a head once, and when all of them get past the delivery
IDs taken lately. -/
namespace Kubeast.Signals
open Sorted Recent Webhook

section Told
variable {x : Head} {h : RepoHeads} {known : Head → Option (Option String)}

theorem nodup_listed (h : RepoHeads) : (listed h).Nodup := by
  rw [listed, List.nodup_append]
  refine ⟨?_, ?_, ?_⟩
  · refine List.Nodup.map_on ?_ (increasing_sortBy h.branches.nodup).nodup
    intro r hr r' hr' heq
    exact Table.eq_of_key_eq (mem_sortBy.mp hr) (mem_sortBy.mp hr') (Head.branch.inj heq)
  · refine List.Nodup.map_on ?_ (increasing_sortBy h.numbers).nodup
    intro pr hpr pr' hpr' heq
    exact List.inj_on_of_nodup_map h.numbers (mem_sortBy.mp hpr) (mem_sortBy.mp hpr')
      (Head.pull.inj heq)
  · intro y hy z hz
    obtain ⟨r, -, rfl⟩ := List.mem_map.mp hy
    obtain ⟨pr, -, rfl⟩ := List.mem_map.mp hz
    simp

/-- What an answer shows it lists. -/
theorem mem_listed {sha : String} (hshown : shown h x = some sha) : x ∈ listed h := by
  rw [listed, List.mem_append, List.mem_map, List.mem_map]
  cases x with
  | branch name =>
    left
    obtain ⟨r, hr, -⟩ := Option.map_eq_some_iff.mp hshown
    exact ⟨r, mem_sortBy.mpr (Table.mem_of_get hr), congrArg _ (Table.key_of_get hr)⟩
  | pull number =>
    right
    obtain ⟨pr, hpr, -⟩ := Option.map_eq_some_iff.mp hshown
    have hnumber : pr.number = number := by simpa using List.find?_some hpr
    exact ⟨pr, mem_sortBy.mpr (List.mem_of_find?_eq_some hpr), congrArg _ hnumber⟩

theorem shown_of_changeIn {known : Option (Option String)} {sha : String}
    (hchange : changeIn x known h = some sha) : shown h x = some sha := by
  unfold changeIn at hchange
  split at hchange
  · cases hchange
  · obtain ⟨was, -, hwas⟩ := Option.bind_eq_some_iff.mp hchange
    exact (Option.filter_eq_some_iff.mp hwas).1

theorem shas_changesIn_of_nodup {heads : List Head} (hnodup : heads.Nodup) (f : Head → Option String)
    (id : ℤ) (x : Head) :
    (((heads.filterMap fun y => (f y).map fun sha => Change.mk id y sha).filter
      fun c => decide (c.head = x)).map Change.sha) = if x ∈ heads then (f x).toList else [] := by
  induction heads with
  | nil => rfl
  | cons y heads ih =>
    obtain ⟨hy, hheads⟩ := List.nodup_cons.mp hnodup
    have ih := ih hheads
    rw [List.filterMap_cons]
    by_cases hyx : y = x
    · subst hyx
      rw [if_neg hy] at ih
      rw [if_pos (List.mem_cons_self ..)]
      cases hf : f y with
      | none => exact ih
      | some sha =>
        rw [Option.map_some]
        dsimp only
        rw [List.filter_cons_of_pos (by simp), List.map_cons, ih]
        rfl
    · simp only [List.mem_cons, Ne.symm hyx, false_or]
      rw [← ih]
      cases f y with
      | none => rfl
      | some sha =>
        rw [Option.map_some]
        dsimp only
        rw [List.filter_cons_of_neg (by simpa using hyx)]

/-- An answer changes a head at most once. -/
theorem shas_changesIn (known : Head → Option (Option String)) (h : RepoHeads) (x : Head) :
    ((changesIn known h).filter fun c => decide (c.head = x)).map Change.sha =
      (changeIn x (known x) h).toList := by
  rw [changesIn, shas_changesIn_of_nodup (nodup_listed h) fun y => changeIn y (known y) h]
  split
  · rfl
  · next hx =>
    cases hchange : changeIn x (known x) h with
    | none => rfl
    | some sha => exact absurd (mem_listed (shown_of_changeIn hchange)) hx

/-- The changes of one head among all of them. -/
theorem shas_changes (known : Head → Option (Option String)) (ps : List Poll) (x : Head) :
    ((changes known ps).filter fun c => decide (c.head = x)).map Change.sha =
      changesOf x (known x) ps := by
  induction ps generalizing known with
  | nil => rfl
  | cons p ps ih => rw [changes, changesOf, List.filter_append, List.map_append, shas_changesIn, ih]

theorem shas_eq (x : Head) (events : List Event) :
    shas x events =
      ((events.filterMap Event.change).filter fun c => decide (c.head = x)).map Change.sha := by
  induction events with
  | nil => rfl
  | cons e events ih =>
    rw [shas] at ih
    rw [shas, List.filterMap_cons, Event.change, List.filter_cons]
    cases e.head with
    | none => simpa using ih
    | some y =>
      by_cases hyx : y = x
      · simp [hyx, ih]
      · simp [hyx, ih]

/-- Each change of a head gives one event, in order. -/
theorem shas_polled (ps : List Poll) (x : Head) : shas x (polled none ps) = changesOf x none ps := by
  rw [shas_eq, changes_polled]
  exact shas_changes (known none) ps x

end Told

section Named
variable {h : RepoHeads} {e : Event} {c : Change}

/-- An event is named after the change it tells of. -/
theorem delivery_fromPoll {prev : Option Seen} {installation : ℤ}
    (he : e ∈ (fromPoll prev h installation).1) (hchange : e.change = some c) :
    e.delivery = c.delivery := by
  unfold fromPoll at he
  split at he
  · cases he
  · cases prev with
    | none => cases he
    | some s =>
      rcases List.mem_append.mp he with he | he
      · rcases List.mem_append.mp he with he | he
        · obtain ⟨r, -, rfl⟩ := List.mem_map.mp he
          rw [Event.change, head_branch rfl rfl, Option.map_some, Option.some.injEq] at hchange
          rw [← hchange]
          rfl
        · obtain ⟨r, -, rfl⟩ := List.mem_map.mp he
          rw [Event.change, head_tag rfl rfl] at hchange
          cases hchange
      · obtain ⟨pr, -, hpr⟩ := List.mem_filterMap.mp he
        unfold pullEvent at hpr
        dsimp only at hpr
        split at hpr
        · cases hpr
        · obtain rfl := Option.some.inj hpr
          rw [Event.change, head_pull rfl, Option.map_some, Option.some.injEq] at hchange
          rw [← hchange]
          rfl

theorem delivery_polled {prev : Option Seen} {ps : List Poll} (he : e ∈ polled prev ps)
    (hchange : e.change = some c) : e.delivery = c.delivery := by
  induction ps generalizing prev with
  | nil => cases he
  | cons p ps ih =>
    rcases List.mem_append.mp he with he | he
    · exact delivery_fromPoll he hchange
    · exact ih he

/-- The events of branches and pull request heads. -/
def ofHeads (events : List Event) : List Event := events.filter fun e => e.head.isSome

theorem deliveries_polled (ps : List Poll) :
    (ofHeads (polled none ps)).map Event.delivery =
      (changes (fun _ => none) ps).map Change.delivery := by
  have hchanges : changes (fun _ => none) ps = (polled none ps).filterMap Event.change :=
    (changes_polled none ps).symm
  rw [hchanges]
  have hnamed : ∀ e ∈ polled none ps, ∀ c, e.change = some c → e.delivery = c.delivery :=
    fun e he c => delivery_polled he
  generalize polled none ps = events at hnamed
  induction events with
  | nil => rfl
  | cons e events ih =>
    have ih := ih fun e he => hnamed e (List.mem_cons_of_mem _ he)
    have hfirst := hnamed e (List.mem_cons_self ..)
    rw [ofHeads] at ih
    rw [ofHeads, List.filterMap_cons, List.filter_cons]
    cases hhead : e.head with
    | none => simpa [Event.change, hhead] using ih
    | some x =>
      rw [Event.change, hhead, Option.map_some] at hfirst
      simp [Event.change, hhead, ih, hfirst _ rfl]

end Named

section Filter

/-- The arrivals that get past the deliveries taken lately: one that was seen is dropped, any other
is taken. -/
def through (d : Deliveries) : List (Event × ℤ) → List Event
  | [] => []
  | (e, now) :: rest =>
    let (d, seen) := d.wasSeen e.delivery now
    if seen then through d rest else e :: through (d.take e.delivery now) rest

theorem through_sublist (d : Deliveries) (arrivals : List (Event × ℤ)) :
    (through d arrivals).Sublist (arrivals.map Prod.fst) := by
  induction arrivals generalizing d with
  | nil => exact List.Sublist.refl _
  | cons a arrivals ih =>
    obtain ⟨e, now⟩ := a
    rw [through, List.map_cons]
    dsimp only
    split
    · exact List.Sublist.cons e (ih _)
    · exact List.Sublist.cons_cons e (ih _)

theorem through_eq_iff {d : Deliveries} {past : List String} {arrivals : List (Event × ℤ)}
    (hd : d.Consistent) (hholds : Holds (1 ⊔ d.max) past d.memory) (hpast : Apart (1 ⊔ d.max) past)
    (hlive : ∀ e ∈ d.memory, ∀ a ∈ arrivals, a.2 - e.2 < d.ttl)
    (htimes : (arrivals.map Prod.snd).Pairwise fun t t' => t' - t < d.ttl) :
    through d arrivals = arrivals.map Prod.fst ↔
      Apart (1 ⊔ d.max) (past ++ arrivals.map fun a => a.1.delivery) := by
  induction arrivals generalizing d past with
  | nil => simpa [through] using hpast
  | cons a arrivals ih =>
    obtain ⟨e, now⟩ := a
    obtain ⟨hnow, htimes⟩ := List.pairwise_cons.mp htimes
    have hlivenow := fun entry hentry => hlive entry hentry (e, now) (List.mem_cons_self ..)
    obtain ⟨hexpired, hmemory, httl, hmax⟩ := Deliveries.consistent_expire hd now
    rw [expire_of_live hlivenow] at hmemory
    have hseen : (d.wasSeen e.delivery now).2 = true ↔ _ :=
      Deliveries.wasSeen_refines hd e.delivery now ▸ seen_of_live hlivenow
    have hconcat : Apart (1 ⊔ d.max) (past ++ [e.delivery]) ↔ _ := apart_concat
    rw [← hholds] at hconcat
    rw [through, List.map_cons, List.map_cons, List.append_cons]
    dsimp only
    by_cases hmem : e.delivery ∈ d.memory.map Prod.fst
    · rw [if_pos (hseen.mpr hmem)]
      constructor
      · intro heq
        have hlength := (through_sublist (d.wasSeen e.delivery now).1 arrivals).length_le
        rw [heq, List.length_cons] at hlength
        omega
      · intro hapart
        exact absurd hmem (hconcat.mp hapart.left).2
    · rw [if_neg fun h => hmem (hseen.mp h), List.cons_inj_right]
      obtain ⟨htaken, htakenMemory, htakenTtl, htakenMax⟩ :=
        Deliveries.take_refines hexpired e.delivery now
      rw [hmemory, httl, hmax] at htakenMemory
      have hnew : e.delivery ∉ (expire d.ttl now d.memory).map Prod.fst := by
        rwa [expire_of_live hlivenow]
      have htakenHolds := hholds.take hlivenow hmem
      have htakenApart := hconcat.mpr ⟨hpast, hmem⟩
      have htakenLive : ∀ entry ∈ take d.ttl d.max d.memory e.delivery now,
          ∀ a ∈ arrivals, a.2 - entry.2 < d.ttl := by
        intro entry hentry later hlater
        rcases mem_take hnew hentry with rfl | hentry
        · exact hnow later.2 (List.mem_map_of_mem hlater)
        · exact hlive entry hentry later (List.mem_cons_of_mem _ hlater)
      rw [← htakenMemory, ← htakenMax.trans hmax] at htakenHolds
      rw [← htakenMax.trans hmax] at htakenApart ⊢
      rw [← htakenMemory, ← htakenTtl.trans httl] at htakenLive
      rw [← htakenTtl.trans httl] at htimes
      exact ih htaken htakenHolds htakenApart htakenLive htimes

/-- Part of the events with all values of every head is all of them. -/
theorem eq_of_shas {events events' : List Event} (hsub : events'.Sublist events)
    (hheads : ∀ e ∈ events, e.head.isSome = true) (hshas : ∀ x, shas x events' = shas x events) :
    events' = events := by
  induction hsub with
  | slnil => rfl
  | @cons events' events e hsub ih =>
    obtain ⟨x, hx⟩ := Option.isSome_iff_exists.mp (hheads e (List.mem_cons_self ..))
    have hlength := congrArg List.length (hshas x)
    have hle := (hsub.filter fun e => decide (e.head = some x)).length_le
    rw [shas, shas, List.length_map, List.length_map, List.filter_cons_of_pos (by simpa using hx),
      List.length_cons] at hlength
    omega
  | @cons_cons events' events e hsub ih =>
    congr 1
    apply ih fun e he => hheads e (List.mem_cons_of_mem _ he)
    intro x
    have hx := hshas x
    rw [shas, shas, List.filter_cons, List.filter_cons] at hx
    split at hx
    · exact (List.cons.inj hx).2
    · exact hx

/-- The deliveries of a process that has taken none. -/
abbrev untaken (ttl : ℤ) (max : ℕ) : Deliveries := ⟨ttl, max, Table.empty, [], 0⟩

/-- Every change gets through when no delivery comes again while it is remembered, and only then. -/
theorem shas_through_iff {ps : List Poll} {ttl : ℤ} {max : ℕ} {arrivals : List (Event × ℤ)}
    (harrivals : arrivals.map Prod.fst = ofHeads (polled none ps))
    (htimes : (arrivals.map Prod.snd).Pairwise fun t t' => t' - t < ttl) :
    (∀ x, shas x (through (untaken ttl max) arrivals) = changesOf x none ps) ↔
      Apart (1 ⊔ max) ((changes (fun _ => none) ps).map Change.delivery) := by
  have hshas : ∀ x, shas x (arrivals.map Prod.fst) = changesOf x none ps := by
    intro x
    rw [← shas_polled, harrivals, shas, shas, ofHeads, List.filter_filter]
    congr 1
    apply List.filter_congr
    intro e _
    cases e.head <;> simp
  have hthrough : through (untaken ttl max) arrivals = arrivals.map Prod.fst ↔
      Apart (1 ⊔ max) ([] ++ arrivals.map fun a => a.1.delivery) :=
    through_eq_iff (Deliveries.consistent_start ttl max) List.drop_nil.symm (fun i j _ hj => nomatch hj)
      (fun entry hentry => nomatch hentry) htimes
  have hdeliveries : arrivals.map (fun a => a.1.delivery) =
      (changes (fun _ => none) ps).map Change.delivery := by
    rw [← deliveries_polled, ← harrivals, List.map_map]
    rfl
  rw [List.nil_append, hdeliveries] at hthrough
  rw [← hthrough]
  constructor
  · intro hall
    refine eq_of_shas (through_sublist _ _) ?_ fun x => (hall x).trans (hshas x).symm
    intro e he
    rw [harrivals] at he
    exact (List.mem_filter.mp he).2
  · intro hall x
    rw [hall, hshas]

/-- Polling builds each change once: whatever the answers, each change of a head gives one event,
in order; and all of them get past the deliveries taken lately exactly when no change has the name
of one of the last `max` before it. -/
theorem polled_once (ps : List Poll) (ttl : ℤ) (max : ℕ) (arrivals : List (Event × ℤ))
    (harrivals : arrivals.map Prod.fst = ofHeads (polled none ps))
    (htimes : (arrivals.map Prod.snd).Pairwise fun t t' => t' - t < ttl) :
    (∀ x, shas x (polled none ps) = changesOf x none ps) ∧
      ((∀ x, shas x (through (untaken ttl max) arrivals) = changesOf x none ps) ↔
        Apart (1 ⊔ max) ((changes (fun _ => none) ps).map Change.delivery)) :=
  ⟨shas_polled ps, shas_through_iff harrivals htimes⟩

/-- An answer of a repository with one branch. -/
def onlyMain (sha : String) (h : sha ≠ "") : RepoHeads where
  repo := "acme/web"
  repoID := 42
  archived := false
  missing := false
  branches := ⟨[("main", sha)], List.nodup_singleton _⟩
  tags := Table.empty
  pullRequests := []
  truncated := false
  commits := by simpa using h
  numbers := List.nodup_nil

/-- The branch moves, is moved back, and moves again. -/
def mainBack : List Poll :=
  let first := onlyMain "1111111111111111111111111111111111111111" (by decide)
  let second := onlyMain "2222222222222222222222222222222222222222" (by decide)
  [⟨first, 7⟩, ⟨second, 7⟩, ⟨first, 7⟩, ⟨second, 7⟩]

theorem polled_once_mainBack :
    (∀ x, shas x (polled none mainBack) = changesOf x none mainBack) ∧
      ((∀ x, shas x (through (untaken 10 1) ((ofHeads (polled none mainBack)).map (·, 0))) =
          changesOf x none mainBack) ↔
        Apart 1 ((changes (fun _ => none) mainBack).map Change.delivery)) :=
  polled_once mainBack 10 1 ((ofHeads (polled none mainBack)).map (·, 0))
    (by rw [List.map_map]; exact List.map_id _)
    (by rw [List.map_map, List.pairwise_map]; exact List.pairwise_of_forall fun _ _ => show (0 : ℤ) - 0 < 10 by decide)

/-- The second move to a commit is taken for the first. -/
theorem polled_back_dropped : ∃ arrivals : List (Event × ℤ),
    arrivals.map Prod.fst = ofHeads (polled none mainBack) ∧
      (arrivals.map Prod.snd).Pairwise (fun t t' => t' - t < Deliveries.new.ttl) ∧
      ¬ ∀ x, shas x (through Deliveries.new arrivals) = changesOf x none mainBack := by
  have hfst : ((ofHeads (polled none mainBack)).map (·, (0 : ℤ))).map Prod.fst =
      ofHeads (polled none mainBack) := by
    rw [List.map_map]
    exact List.map_id _
  have hsnd : (((ofHeads (polled none mainBack)).map (·, (0 : ℤ))).map Prod.snd).Pairwise
      (fun t t' => t' - t < Deliveries.new.ttl) := by
    rw [List.map_map, List.pairwise_map]
    exact List.pairwise_of_forall fun _ _ => show (0 : ℤ) - 0 < Deliveries.new.ttl by decide
  refine ⟨_, hfst, hsnd, fun hall => ?_⟩
  have hapart := (shas_through_iff hfst hsnd).mp hall
  have hchanges : changes (fun _ => none) mainBack =
      [⟨42, .branch "main", "2222222222222222222222222222222222222222"⟩,
        ⟨42, .branch "main", "1111111111111111111111111111111111111111"⟩,
        ⟨42, .branch "main", "2222222222222222222222222222222222222222"⟩] := by decide
  rw [hchanges] at hapart
  have hfar := hapart 0 2 (by decide) (by decide) rfl
  revert hfar
  decide

end Filter
end Kubeast.Signals
