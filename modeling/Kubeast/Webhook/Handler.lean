import Kubeast.Foundation.Transition
import Kubeast.Webhook.Deliveries

/-! `ServeHTTP` behind the verifier (`internal/webhook/handler.go`): any number of calls between
`Seen`, `Enqueue` and `Take`, and that a delivery is queued once while no two calls of it overlap
there. -/
namespace Kubeast.Webhook
open Recent Transition

/-- What a call does next. -/
inductive ServePhase
  | seen
  | enqueue
  | take
  | done (status : ℕ) (text : String)
deriving DecidableEq

structure Call where
  delivery : String
  phase : ServePhase

inductive Logged
  | queued (id : String) (t : ℤ)
  | refused (id : String) (t : ℤ)
  | taken (id : String) (t : ℤ)
deriving DecidableEq

/-- The clock, the IDs taken, the calls, and what was queued, refused and taken so far. -/
structure Server where
  now : ℤ
  deliveries : Deliveries
  calls : List Call
  log : List Logged

def Server.start (now ttl : ℤ) (max : ℕ) : Server := ⟨now, ⟨ttl, max, Table.empty, [], 0⟩, [], []⟩

inductive ServeStep
  | tick (d : ℕ)
  | begin (delivery : String)
  /-- The next step of a call; `room` is what `Enqueue` answers. -/
  | go (i : ℕ) (room : Bool)

def serveCall (w : Server) (i : ℕ) (room : Bool) : Server :=
  match w.calls[i]? with
  | none => w
  | some c =>
    match c.phase with
    | .seen =>
        let (d, seen) := w.deliveries.wasSeen c.delivery w.now
        { w with deliveries := d, calls := w.calls.set i { c with
            phase := if seen then .done 202 "duplicate\n" else .enqueue } }
    | .enqueue =>
        if room then
          { w with log := w.log ++ [Logged.queued c.delivery w.now]
                   calls := w.calls.set i { c with phase := .take } }
        else
          { w with log := w.log ++ [Logged.refused c.delivery w.now]
                   calls := w.calls.set i { c with phase := .done 503 "queue-full\n" } }
    | .take =>
        { w with deliveries := w.deliveries.take c.delivery w.now
                 log := w.log ++ [Logged.taken c.delivery w.now]
                 calls := w.calls.set i { c with phase := .done 202 "queued\n" } }
    | .done _ _ => w

def serveStep (w : Server) : ServeStep → Server
  | .tick d => { w with now := w.now + d }
  | .begin delivery => { w with calls := w.calls ++ [⟨delivery, .seen⟩] }
  | .go i room => serveCall w i room

/-- The call has been told that its delivery is new and has not recorded it. -/
def ServePhase.between : ServePhase → Bool
  | .enqueue | .take => true
  | _ => false

/-- A call asks about a delivery only while no other call of it is between `Seen` and `Take`. -/
def AsksAlone (w : Server) : ServeStep → Prop
  | .go i _ => ∀ c ∈ w.calls[i]?, c.phase = .seen →
      ∀ c' ∈ w.calls, c'.delivery = c.delivery → c'.phase.between = false
  | _ => True

instance (w : Server) : (a : ServeStep) → Decidable (AsksAlone w a)
  | .go i _ => inferInstanceAs (Decidable (∀ c ∈ w.calls[i]?, c.phase = .seen →
      ∀ c' ∈ w.calls, c'.delivery = c.delivery → c'.phase.between = false))
  | .tick _ | .begin _ => isTrue trivial

/-- At least `max` other deliveries were taken. -/
def Crowded (max : ℕ) (id : String) (log : List Logged) : Prop :=
  ∃ others : List String, others.Nodup ∧ max ≤ others.length ∧
    ∀ x ∈ others, x ≠ id ∧ ∃ t, Logged.taken x t ∈ log

/-- A call for the delivery, with nothing in between and room in the queue. -/
def sendAgain (w : Server) (id : String) : Server :=
  exec serveStep w (.begin id :: List.replicate 3 (.go w.calls.length true))

/-- A delivery is queued again only after the TTL or behind enough other ones, and one that was
refused and has not been queued since can be. -/
structure QueuedOnce (ttl : ℤ) (max : ℕ) (w : Server) : Prop where
  apart : ∀ pre id t mid t' post,
    w.log = pre ++ Logged.queued id t :: (mid ++ Logged.queued id t' :: post) →
      ttl ≤ t' - t ∨ Crowded max id mid
  resend : ∀ pre id t post, w.log = pre ++ Logged.refused id t :: post →
    (∀ t', Logged.queued id t' ∉ post) → w.deliveries.seen.get id = none ∧
      (sendAgain w id).calls = w.calls ++ [⟨id, .done 202 "queued\n"⟩]

section Logs
variable {α : Type*} {log pre post : List α} {x e : α}

/-- Where an element of a longer log stands. -/
theorem split_concat (h : log ++ [e] = pre ++ x :: post) :
    (∃ post', post = post' ++ [e] ∧ log = pre ++ x :: post') ∨ log = pre ∧ e = x ∧ post = [] := by
  cases post using List.reverseRecOn with
  | nil =>
    obtain ⟨hlog, hx⟩ := List.append_inj' h rfl
    exact Or.inr ⟨hlog, List.singleton_inj.mp hx, rfl⟩
  | append_singleton post' y =>
    rw [← List.cons_append, ← List.append_assoc] at h
    obtain ⟨hlog, hy⟩ := List.append_inj' h rfl
    exact Or.inl ⟨post', by rw [List.singleton_inj.mp hy], hlog⟩

/-- Of two places in one log, one comes after the other. -/
theorem split_split {pre' post' : List α} {y : α} (h : pre ++ x :: post = pre' ++ y :: post') :
    x = y ∨ y ∈ post ∨ x ∈ post' := by
  induction pre generalizing pre' with
  | nil =>
    cases pre' with
    | nil => exact Or.inl (List.cons.inj h).1
    | cons z pre' =>
      rw [(List.cons.inj h).2]
      simp
  | cons z pre ih =>
    cases pre' with
    | nil =>
      rw [← (List.cons.inj h).2]
      simp
    | cons z' pre' => exact ih (List.cons.inj h).2

end Logs

section Invariant
variable {ttl now now' t : ℤ} {max : ℕ} {id : String} {m : Memory String} {log post : List Logged}
  {w : Server} {x : Logged}

/-- The delivery is remembered, with all that was taken after it. -/
def Held (m : Memory String) (id : String) (t : ℤ) (post : List Logged) : Prop :=
  ∃ m₁ τ m₂, m = m₁ ++ (id, τ) :: m₂ ∧ t ≤ τ ∧ ∀ e ∈ m₂, .taken e.1 e.2 ∈ post

/-- The delivery may be queued again. -/
def Free (ttl : ℤ) (max : ℕ) (now : ℤ) (id : String) (t : ℤ) (post : List Logged) : Prop :=
  ttl ≤ now - t ∨ Crowded max id post

/-- No two calls of one delivery are between `Seen` and `Take`. -/
def Single (calls : List Call) : Prop :=
  ∀ (i j : ℕ) (c c' : Call), i ≠ j → calls[i]? = some c → calls[j]? = some c' →
    c.phase.between = true → c'.phase.between = true → c.delivery ≠ c'.delivery

structure Ok (ttl : ℤ) (max : ℕ) (w : Server) : Prop where
  ttl_eq : w.deliveries.ttl = ttl
  max_eq : w.deliveries.max = max
  consistent : w.deliveries.Consistent
  sorted : Sorted w.deliveries.memory
  past : (∀ e ∈ w.deliveries.memory, e.2 ≤ w.now) ∧ ∀ id t, Logged.queued id t ∈ w.log → t ≤ w.now
  single : Single w.calls
  absent : ∀ c ∈ w.calls, c.phase.between = true →
    c.delivery ∉ w.deliveries.memory.map Prod.fst
  queued : ∀ pre id t post, w.log = pre ++ Logged.queued id t :: post →
    (∃ c ∈ w.calls, c.delivery = id ∧ c.phase = .take) ∨ Held w.deliveries.memory id t post ∨
      Free ttl max w.now id t post
  asked : ∀ c ∈ w.calls, c.phase = .enqueue → ∀ pre t post,
    w.log = pre ++ Logged.queued c.delivery t :: post → Free ttl max w.now c.delivery t post
  apart : ∀ pre id t mid t' post,
    w.log = pre ++ Logged.queued id t :: (mid ++ Logged.queued id t' :: post) →
      ttl ≤ t' - t ∨ Crowded max id mid
  refused : ∀ pre id t post, w.log = pre ++ Logged.refused id t :: post →
    (∀ t', Logged.queued id t' ∉ post) → id ∉ w.deliveries.memory.map Prod.fst
  taking : ∀ c ∈ w.calls, c.phase = .take → ∃ pre t post,
    w.log = pre ++ Logged.queued c.delivery t :: post ∧ ∀ t', Logged.refused c.delivery t' ∉ post

theorem Crowded.mono (hsub : log ⊆ post) (h : Crowded max id log) : Crowded max id post := by
  obtain ⟨others, hnodup, hlength, hall⟩ := h
  refine ⟨others, hnodup, hlength, fun k hk => ?_⟩
  obtain ⟨hne, t, ht⟩ := hall k hk
  exact ⟨hne, t, hsub ht⟩

theorem Free.mono (hnow : now ≤ now') (hsub : log ⊆ post) (h : Free ttl max now id t log) :
    Free ttl max now' id t post := by
  rcases h with hold | hcrowded
  · exact Or.inl (by omega)
  · exact Or.inr (hcrowded.mono hsub)

theorem Held.mono (hsub : log ⊆ post) (h : Held m id t log) : Held m id t post := by
  obtain ⟨m₁, τ, m₂, hm, ht, hafter⟩ := h
  exact ⟨m₁, τ, m₂, hm, ht, fun e he => hsub (hafter e he)⟩

theorem held_expire (h : Held m id t post) :
    Held (expire ttl now m) id t post ∨ ttl ≤ now - t := by
  obtain ⟨m₁, τ, m₂, rfl, ht, hafter⟩ := h
  rcases expire_append_cons ttl now m₁ (id, τ) m₂ with hold | ⟨m₁', hexpire⟩
  · right
    dsimp only at hold
    omega
  · exact Or.inl ⟨m₁', τ, m₂, hexpire, ht, hafter⟩

/-- Another delivery is taken: behind the one that is held, or in its place. -/
theorem held_take {k : String} (hnew : k ∉ (expire ttl now m).map Prod.fst) (hsorted : Sorted m)
    (hnodup : (m.map Prod.fst).Nodup) (hk : k ≠ id) (hlog : Logged.taken k now ∈ post)
    (h : Held m id t post) :
    Held (take ttl max m k now) id t post ∨ Free ttl max now id t post := by
  obtain ⟨m₁, τ, m₂, hm, ht, hafter⟩ := h
  rcases take_append_cons hnew hm with hold | hcrowd | ⟨m₁', htake⟩
  · right
    left
    dsimp only at hold
    omega
  · by_cases hkm : k ∈ m₂.map Prod.fst
    · -- an old entry of the new delivery: what was taken before it is old too
      obtain ⟨e, he, rfl⟩ := List.mem_map.mp hkm
      have hmem : e ∈ m := by simp [hm, he]
      have hold := old_of_not_mem_expire hmem fun hin => hnew (List.mem_map_of_mem hin)
      rw [hm] at hsorted
      have hle := (List.pairwise_cons.mp (List.pairwise_append.mp hsorted).2.1).1 e he
      right
      left
      dsimp only at hle
      omega
    · rw [hm, List.map_append, List.map_cons] at hnodup
      obtain ⟨hid, hrest⟩ := List.nodup_cons.mp (List.nodup_append.mp hnodup).2.1
      refine Or.inr (Or.inr ⟨k :: m₂.map Prod.fst, List.nodup_cons.mpr ⟨hkm, hrest⟩,
        by simpa using hcrowd, fun x hx => ?_⟩)
      rcases List.mem_cons.mp hx with rfl | hx
      · exact ⟨hk, now, hlog⟩
      · refine ⟨fun heq => hid (heq ▸ hx), ?_⟩
        obtain ⟨e, he, rfl⟩ := List.mem_map.mp hx
        exact ⟨e.2, hafter e he⟩
  · left
    refine ⟨m₁', τ, m₂ ++ [(k, now)], htake, ht, fun e he => ?_⟩
    rcases List.mem_append.mp he with he | he
    · exact hafter e he
    · rw [List.mem_singleton.mp he]
      exact hlog

theorem Ok.nodup (h : Ok ttl max w) : (w.deliveries.memory.map Prod.fst).Nodup := by
  rw [Deliveries.memory, h.consistent.holds.keys]
  exact h.consistent.holds.nodup

theorem Ok.start (now ttl : ℤ) (max : ℕ) : Ok ttl max (.start now ttl max) := by
  constructor
  case ttl_eq => rfl
  case max_eq => rfl
  case consistent => exact Deliveries.consistent_start ttl max
  case sorted => exact List.Pairwise.nil
  case past => simp [Server.start, Deliveries.memory]
  case single =>
    intro i j c c' _ hc
    cases hc
  all_goals simp [Server.start]

theorem Ok.tick (h : Ok ttl max w) (d : ℕ) : Ok ttl max (serveStep w (.tick d)) := by
  have hnow : w.now ≤ w.now + d := by omega
  refine ⟨h.ttl_eq, h.max_eq, h.consistent, h.sorted, ⟨?_, ?_⟩, h.single, h.absent, ?_, ?_,
    h.apart, h.refused, h.taking⟩
  · exact fun e he => (h.past.1 e he).trans hnow
  · exact fun id t ht => (h.past.2 id t ht).trans hnow
  · intro pre id t post hlog
    rcases h.queued pre id t post hlog with htaking | hheld | hfree
    · exact Or.inl htaking
    · exact Or.inr (Or.inl hheld)
    · exact Or.inr (Or.inr (hfree.mono hnow (List.Subset.refl _)))
  · intro c hc hphase pre t post hlog
    exact (h.asked c hc hphase pre t post hlog).mono hnow (List.Subset.refl _)

theorem calls_set {calls : List Call} {P : Call → Prop} {i : ℕ} {c : Call}
    (h : ∀ j d, i ≠ j → calls[j]? = some d → P d) (hc : P c) : ∀ d ∈ calls.set i c, P d := by
  intro d hd
  obtain ⟨j, hj⟩ := List.mem_iff_getElem?.mp hd
  rw [List.getElem?_set] at hj
  split_ifs at hj with hij hlen
  · obtain rfl := Option.some.inj hj
    exact hc
  · exact h j d hij hj

theorem single_set {calls : List Call} {i : ℕ} {c : Call} {p : ServePhase} (h : Single calls)
    (hother : p.between = true → ∀ j d, i ≠ j → calls[j]? = some d → d.phase.between = true →
      d.delivery ≠ c.delivery) :
    Single (calls.set i { c with phase := p }) := by
  intro j l d e hne hd he hbetween hbetween'
  rw [List.getElem?_set] at hd he
  split_ifs at hd he with hj hlen hl hl
  · exact absurd (hj.symm.trans hl) hne
  · obtain rfl := Option.some.inj hd
    exact (hother hbetween l e hl he hbetween').symm
  · obtain rfl := Option.some.inj he
    exact hother hbetween' j d hj hd hbetween
  · exact h j l d e hne hd he hbetween hbetween'

theorem mem_set_of_ne {calls : List Call} {i : ℕ} {c c' d : Call} (hc : calls[i]? = some c)
    (hc' : c' ∈ calls) (hne : c' ≠ c) : c' ∈ calls.set i d := by
  obtain ⟨j, hj⟩ := List.mem_iff_getElem?.mp hc'
  have hij : i ≠ j := by
    rintro rfl
    exact hne (Option.some.inj (hj.symm.trans hc))
  exact List.mem_of_getElem? ((List.getElem?_set_ne hij).trans hj)

theorem Held.mem (h : Held m id t post) : id ∈ m.map Prod.fst := by
  obtain ⟨m₁, τ, m₂, rfl, -⟩ := h
  simp

theorem Ok.begin (h : Ok ttl max w) (delivery : String) :
    Ok ttl max (serveStep w (.begin delivery)) := by
  have hold : ∀ (j : ℕ) (c : Call), (w.calls ++ [⟨delivery, .seen⟩])[j]? = some c → c.phase.between = true →
      w.calls[j]? = some c := by
    intro j c hc hbetween
    rw [List.getElem?_append] at hc
    split at hc
    · exact hc
    · rw [List.mem_singleton.mp (List.mem_of_getElem? hc)] at hbetween
      cases hbetween
  have hmem : ∀ c ∈ w.calls ++ [⟨delivery, .seen⟩], c.phase.between = true → c ∈ w.calls := by
    intro c hc hbetween
    obtain ⟨j, hj⟩ := List.mem_iff_getElem?.mp hc
    exact List.mem_of_getElem? (hold j c hj hbetween)
  refine ⟨h.ttl_eq, h.max_eq, h.consistent, h.sorted, h.past, ?_, ?_, ?_, ?_, h.apart, h.refused, ?_⟩
  · intro i j c c' hne hc hc' hbetween hbetween'
    exact h.single i j c c' hne (hold i c hc hbetween) (hold j c' hc' hbetween') hbetween hbetween'
  · exact fun c hc hbetween => h.absent c (hmem c hc hbetween) hbetween
  · intro pre id t post hlog
    rcases h.queued pre id t post hlog with ⟨c, hc, htaking⟩ | hrest
    · exact Or.inl ⟨c, List.mem_append_left _ hc, htaking⟩
    · exact Or.inr hrest
  · exact fun c hc hphase => h.asked c (hmem c hc (by rw [hphase]; rfl)) hphase
  · exact fun c hc hphase => h.taking c (hmem c hc (by rw [hphase]; rfl)) hphase

/-- `Seen` forgets what is old. A delivery it does not know may be queued again. -/
theorem Ok.seen {i : ℕ} {c : Call} (h : Ok ttl max w) (hc : w.calls[i]? = some c)
    (hphase : c.phase = .seen)
    (halone : ∀ c' ∈ w.calls, c'.delivery = c.delivery → c'.phase.between = false) :
    Ok ttl max { w with
      deliveries := (w.deliveries.wasSeen c.delivery w.now).1
      calls := w.calls.set i { c with phase :=
        if (w.deliveries.wasSeen c.delivery w.now).2 then .done 202 "duplicate\n" else .enqueue } } := by
  obtain ⟨hconsistent, hmemory, httl, hmax⟩ := Deliveries.consistent_expire h.consistent w.now
  rw [h.ttl_eq] at hmemory
  have hseen : (w.deliveries.wasSeen c.delivery w.now).2 = true ↔
      c.delivery ∈ (expire ttl w.now w.deliveries.memory).map Prod.fst := by
    rw [Deliveries.wasSeen_refines h.consistent, h.ttl_eq, seen_iff h.sorted]
  have hsub := (expire_isSuffix ttl w.now w.deliveries.memory).subset
  have hkeys : ∀ k, k ∉ w.deliveries.memory.map Prod.fst →
      k ∉ (expire ttl w.now w.deliveries.memory).map Prod.fst :=
    fun k hk hin => hk (List.map_subset _ hsub hin)
  have hqueued : ∀ pre id t post, w.log = pre ++ Logged.queued id t :: post →
      (∃ c' ∈ w.calls, c'.delivery = id ∧ c'.phase = .take) ∨
        Held (expire ttl w.now w.deliveries.memory) id t post ∨ Free ttl max w.now id t post := by
    intro pre id t post hlog
    rcases h.queued pre id t post hlog with htaking | hheld | hfree
    · exact Or.inl htaking
    · rcases held_expire hheld with hheld | hold
      · exact Or.inr (Or.inl hheld)
      · exact Or.inr (Or.inr (Or.inl hold))
    · exact Or.inr (Or.inr hfree)
  obtain ⟨p, hp⟩ : ∃ p, p = if (w.deliveries.wasSeen c.delivery w.now).2 then
      ServePhase.done 202 "duplicate\n" else .enqueue := ⟨_, rfl⟩
  have hnew : p.between = true →
      c.delivery ∉ (expire ttl w.now w.deliveries.memory).map Prod.fst := by
    intro hbetween hin
    rw [hp, if_pos (hseen.mpr hin)] at hbetween
    cases hbetween
  have htake : p ≠ .take := by
    rw [hp]
    split <;> simp
  rw [← hp]
  refine ⟨httl.trans h.ttl_eq, hmax.trans h.max_eq, hconsistent, ?_, ⟨?_, h.past.2⟩, ?_, ?_, ?_, ?_,
    h.apart, ?_, ?_⟩
  · show Sorted (w.deliveries.expire w.now).memory
    rw [hmemory]
    exact sorted_expire h.sorted
  · show ∀ e ∈ (w.deliveries.expire w.now).memory, e.2 ≤ w.now
    rw [hmemory]
    exact fun e he => h.past.1 e (hsub he)
  · refine single_set h.single fun _ j d _ hd hbetween heq => ?_
    rw [halone d (List.mem_of_getElem? hd) heq] at hbetween
    cases hbetween
  · show ∀ d ∈ w.calls.set i { c with phase := p }, d.phase.between = true →
      d.delivery ∉ (w.deliveries.expire w.now).memory.map Prod.fst
    rw [hmemory]
    exact calls_set (fun j d _ hd hbetween =>
      hkeys _ (h.absent d (List.mem_of_getElem? hd) hbetween)) hnew
  · intro pre id t post hlog
    show _ ∨ Held (w.deliveries.expire w.now).memory id t post ∨ _
    rw [hmemory]
    rcases hqueued pre id t post hlog with ⟨c', hc', hid, htaking⟩ | hrest
    · refine Or.inl ⟨c', mem_set_of_ne hc hc' ?_, hid, htaking⟩
      rintro rfl
      rw [hphase] at htaking
      cases htaking
    · exact Or.inr hrest
  · refine calls_set (fun j d _ hd => h.asked d (List.mem_of_getElem? hd)) ?_
    intro henqueue pre t post hlog
    have henqueue : p = .enqueue := henqueue
    rcases hqueued pre c.delivery t post hlog with ⟨c', hc', hid, htaking⟩ | hheld | hfree
    · have hnot := halone c' hc' hid
      rw [htaking] at hnot
      cases hnot
    · exact absurd hheld.mem (hnew (by rw [henqueue]; rfl))
    · exact hfree
  · intro pre id t post hlog hnone
    show id ∉ (w.deliveries.expire w.now).memory.map Prod.fst
    rw [hmemory]
    exact hkeys id (h.refused pre id t post hlog hnone)
  · exact calls_set (fun j d _ hd => h.taking d (List.mem_of_getElem? hd)) fun heq => absurd heq htake

/-- The delivery goes into the queue. -/
theorem Ok.enqueue {i : ℕ} {c : Call} (h : Ok ttl max w) (hc : w.calls[i]? = some c)
    (hphase : c.phase = .enqueue) :
    Ok ttl max { w with log := w.log ++ [Logged.queued c.delivery w.now]
                        calls := w.calls.set i { c with phase := .take } } := by
  have hcm := List.mem_of_getElem? hc
  have hbetween : c.phase.between = true := by rw [hphase]; rfl
  have hlt := (List.getElem?_eq_some_iff.mp hc).1
  have hsub : ∀ post : List Logged, post ⊆ post ++ [Logged.queued c.delivery w.now] :=
    fun post => List.subset_append_left _ _
  refine ⟨h.ttl_eq, h.max_eq, h.consistent, h.sorted, ⟨h.past.1, ?_⟩, ?_, ?_, ?_, ?_, ?_, ?_, ?_⟩
  · intro id t ht
    rcases List.mem_append.mp ht with ht | ht
    · exact h.past.2 id t ht
    · cases List.mem_singleton.mp ht
      exact le_rfl
  · exact single_set h.single fun _ j d hij hd hbetween' =>
      (h.single i j c d hij hc hd hbetween hbetween').symm
  · exact calls_set (fun j d _ hd => h.absent d (List.mem_of_getElem? hd)) fun _ =>
      h.absent c hcm hbetween
  · intro pre id t post hlog
    rcases split_concat hlog with ⟨post', rfl, hold⟩ | ⟨-, hx, -⟩
    · rcases h.queued pre id t post' hold with ⟨c', hc', hid, htaking⟩ | hheld | hfree
      · refine Or.inl ⟨c', mem_set_of_ne hc hc' ?_, hid, htaking⟩
        rintro rfl
        rw [hphase] at htaking
        cases htaking
      · exact Or.inr (Or.inl (hheld.mono (hsub _)))
      · exact Or.inr (Or.inr (hfree.mono le_rfl (hsub _)))
    · obtain ⟨rfl, rfl⟩ := Logged.queued.inj hx
      exact Or.inl ⟨_, List.mem_set hlt _, rfl, rfl⟩
  · refine calls_set (fun j d hij hd henqueue pre t post hlog => ?_) fun heq => (nomatch heq)
    rcases split_concat hlog with ⟨post', rfl, hold⟩ | ⟨-, hx, -⟩
    · exact (h.asked d (List.mem_of_getElem? hd) henqueue pre t post' hold).mono le_rfl (hsub _)
    · exact absurd (Logged.queued.inj hx).1
        (h.single i j c d hij hc hd hbetween (by rw [henqueue]; rfl))
  · intro pre id t mid t' post hlog
    rcases split_concat hlog with ⟨rest, hrest, hold⟩ | ⟨-, -, hnil⟩
    · rcases split_concat hrest.symm with ⟨post', rfl, rfl⟩ | ⟨rfl, hx, -⟩
      · exact h.apart pre id t mid t' post' hold
      · obtain ⟨rfl, rfl⟩ := Logged.queued.inj hx
        exact h.asked c hcm hphase pre t _ hold
    · exact absurd hnil (by simp)
  · intro pre id t post hlog hnone
    rcases split_concat hlog with ⟨post', rfl, hold⟩ | ⟨-, hx, -⟩
    · exact h.refused pre id t post' hold fun t' ht' => hnone t' (hsub _ ht')
    · cases hx
  · refine calls_set (fun j d _ hd htake => ?_) fun _ => ⟨w.log, w.now, [], rfl, by simp⟩
    obtain ⟨pre, t, post, hlog, hnone⟩ := h.taking d (List.mem_of_getElem? hd) htake
    exact ⟨pre, t, post ++ [Logged.queued c.delivery w.now], by simp [hlog], by simpa using hnone⟩

/-- The queue is full. -/
theorem Ok.refuse {i : ℕ} {c : Call} (h : Ok ttl max w) (hc : w.calls[i]? = some c)
    (hphase : c.phase = .enqueue) :
    Ok ttl max { w with log := w.log ++ [Logged.refused c.delivery w.now]
                        calls := w.calls.set i { c with phase := .done 503 "queue-full\n" } } := by
  have hcm := List.mem_of_getElem? hc
  have hbetween : c.phase.between = true := by rw [hphase]; rfl
  have hsub : ∀ post : List Logged, post ⊆ post ++ [Logged.refused c.delivery w.now] :=
    fun post => List.subset_append_left _ _
  refine ⟨h.ttl_eq, h.max_eq, h.consistent, h.sorted, ⟨h.past.1, ?_⟩, ?_, ?_, ?_, ?_, ?_, ?_, ?_⟩
  · intro id t ht
    exact h.past.2 id t (by simpa using ht)
  · exact single_set h.single fun hnot => by cases hnot
  · exact calls_set (fun j d _ hd => h.absent d (List.mem_of_getElem? hd)) fun hnot => by cases hnot
  · intro pre id t post hlog
    rcases split_concat hlog with ⟨post', rfl, hold⟩ | ⟨-, hx, -⟩
    · rcases h.queued pre id t post' hold with ⟨c', hc', hid, htaking⟩ | hheld | hfree
      · refine Or.inl ⟨c', mem_set_of_ne hc hc' ?_, hid, htaking⟩
        rintro rfl
        rw [hphase] at htaking
        cases htaking
      · exact Or.inr (Or.inl (hheld.mono (hsub _)))
      · exact Or.inr (Or.inr (hfree.mono le_rfl (hsub _)))
    · cases hx
  · refine calls_set (fun j d _ hd henqueue pre t post hlog => ?_) fun heq => (nomatch heq)
    rcases split_concat hlog with ⟨post', rfl, hold⟩ | ⟨-, hx, -⟩
    · exact (h.asked d (List.mem_of_getElem? hd) henqueue pre t post' hold).mono le_rfl (hsub _)
    · cases hx
  · intro pre id t mid t' post hlog
    rcases split_concat hlog with ⟨rest, hrest, hold⟩ | ⟨-, hx, -⟩
    · rcases split_concat hrest.symm with ⟨post', rfl, rfl⟩ | ⟨-, hx, -⟩
      · exact h.apart pre id t mid t' post' hold
      · cases hx
    · cases hx
  · intro pre id t post hlog hnone
    rcases split_concat hlog with ⟨post', rfl, hold⟩ | ⟨-, hx, -⟩
    · exact h.refused pre id t post' hold fun t' ht' => hnone t' (hsub _ ht')
    · obtain ⟨rfl, -⟩ := Logged.refused.inj hx
      exact h.absent c hcm hbetween
  · refine calls_set (fun j d hij hd htake => ?_) fun heq => (nomatch heq)
    obtain ⟨pre, t, post, hlog, hnone⟩ := h.taking d (List.mem_of_getElem? hd) htake
    have hne := h.single i j c d hij hc hd hbetween (by rw [htake]; rfl)
    refine ⟨pre, t, post ++ [Logged.refused c.delivery w.now], by simp [hlog], fun t' ht' => ?_⟩
    rcases List.mem_append.mp ht' with ht' | ht'
    · exact hnone t' ht'
    · exact hne (Logged.refused.inj (List.mem_singleton.mp ht')).1.symm

/-- The delivery is remembered. -/
theorem Ok.take {i : ℕ} {c : Call} (h : Ok ttl max w) (hc : w.calls[i]? = some c)
    (hphase : c.phase = .take) :
    Ok ttl max { w with deliveries := w.deliveries.take c.delivery w.now
                        log := w.log ++ [Logged.taken c.delivery w.now]
                        calls := w.calls.set i { c with phase := .done 202 "queued\n" } } := by
  have hcm := List.mem_of_getElem? hc
  have hbetween : c.phase.between = true := by rw [hphase]; rfl
  have hsub : ∀ post : List Logged, post ⊆ post ++ [Logged.taken c.delivery w.now] :=
    fun post => List.subset_append_left _ _
  obtain ⟨hconsistent, hmemory, httl, hmax⟩ :=
    Deliveries.take_refines h.consistent c.delivery w.now
  rw [h.ttl_eq, h.max_eq] at hmemory
  have hnew : c.delivery ∉ (expire ttl w.now w.deliveries.memory).map Prod.fst := fun hin =>
    h.absent c hcm hbetween (List.map_subset _ (expire_isSuffix ttl w.now _).subset hin)
  have hkeys : ∀ k, k ≠ c.delivery → k ∉ w.deliveries.memory.map Prod.fst →
      k ∉ (Recent.take ttl max w.deliveries.memory c.delivery w.now).map Prod.fst := by
    intro k hne hk hin
    obtain ⟨e, he, rfl⟩ := List.mem_map.mp hin
    rcases mem_take hnew he with rfl | he
    · exact hne rfl
    · exact hk (List.mem_map_of_mem he)
  have hlast : ∀ t post, t ≤ w.now → Held
      (Recent.take ttl max w.deliveries.memory c.delivery w.now) c.delivery t post := by
    intro t post ht
    exact ⟨_, w.now, [], take_of_new hnew, ht, by simp⟩
  refine ⟨httl.trans h.ttl_eq, hmax.trans h.max_eq, hconsistent, ?_, ⟨?_, ?_⟩, ?_, ?_, ?_, ?_, ?_,
    ?_, ?_⟩
  · show Sorted (w.deliveries.take c.delivery w.now).memory
    rw [hmemory]
    exact sorted_take hnew h.sorted h.past.1
  · show ∀ e ∈ (w.deliveries.take c.delivery w.now).memory, e.2 ≤ w.now
    rw [hmemory]
    intro e he
    rcases mem_take hnew he with rfl | he
    · exact le_rfl
    · exact h.past.1 e he
  · intro id t ht
    exact h.past.2 id t (by simpa using ht)
  · exact single_set h.single fun hnot => by cases hnot
  · show ∀ d ∈ w.calls.set i _, d.phase.between = true →
      d.delivery ∉ (w.deliveries.take c.delivery w.now).memory.map Prod.fst
    rw [hmemory]
    refine calls_set (fun j d hij hd hdbetween => ?_) fun hnot => by cases hnot
    exact hkeys _ (h.single i j c d hij hc hd hbetween hdbetween).symm
      (h.absent d (List.mem_of_getElem? hd) hdbetween)
  · intro pre id t post hlog
    show _ ∨ Held (w.deliveries.take c.delivery w.now).memory id t post ∨ _
    rw [hmemory]
    rcases split_concat hlog with ⟨post', rfl, hold⟩ | ⟨-, hx, -⟩
    · by_cases hid : c.delivery = id
      · subst hid
        exact Or.inr (Or.inl (hlast t _ (h.past.2 c.delivery t (by rw [hold]; simp))))
      · rcases h.queued pre id t post' hold with ⟨c', hc', hid', htaking⟩ | hheld | hfree
        · refine Or.inl ⟨c', mem_set_of_ne hc hc' ?_, hid', htaking⟩
          rintro rfl
          exact hid hid'
        · exact Or.inr (held_take hnew h.sorted h.nodup hid (by simp) (hheld.mono (hsub _)))
        · exact Or.inr (Or.inr (hfree.mono le_rfl (hsub _)))
    · cases hx
  · refine calls_set (fun j d _ hd henqueue pre t post hlog => ?_) fun heq => (nomatch heq)
    rcases split_concat hlog with ⟨post', rfl, hold⟩ | ⟨-, hx, -⟩
    · exact (h.asked d (List.mem_of_getElem? hd) henqueue pre t post' hold).mono le_rfl (hsub _)
    · cases hx
  · intro pre id t mid t' post hlog
    rcases split_concat hlog with ⟨rest, hrest, hold⟩ | ⟨-, hx, -⟩
    · rcases split_concat hrest.symm with ⟨post', rfl, rfl⟩ | ⟨-, hx, -⟩
      · exact h.apart pre id t mid t' post' hold
      · cases hx
    · cases hx
  · intro pre id t post hlog hnone
    show id ∉ (w.deliveries.take c.delivery w.now).memory.map Prod.fst
    rw [hmemory]
    rcases split_concat hlog with ⟨post', rfl, hold⟩ | ⟨-, hx, -⟩
    · have hnone' : ∀ t', Logged.queued id t' ∉ post' := fun t' ht' => hnone t' (hsub _ ht')
      refine hkeys id ?_ (h.refused pre id t post' hold hnone')
      rintro rfl
      -- the call that is taking was queued after the refusal
      obtain ⟨pre', t', post'', hlog', hrefused⟩ := h.taking c hcm hphase
      rcases split_split (hold.symm.trans hlog') with hx | hx | hx
      · cases hx
      · exact hnone' t' hx
      · exact hrefused t hx
    · cases hx
  · refine calls_set (fun j d _ hd htake => ?_) fun heq => (nomatch heq)
    obtain ⟨pre, t, post, hlog, hnone⟩ := h.taking d (List.mem_of_getElem? hd) htake
    exact ⟨pre, t, post ++ [Logged.taken c.delivery w.now], by simp [hlog], by simpa using hnone⟩

theorem Ok.step {a : ServeStep} (h : Ok ttl max w) (halone : AsksAlone w a) :
    Ok ttl max (serveStep w a) := by
  cases a with
  | tick d => exact h.tick d
  | begin delivery => exact h.begin delivery
  | go i room =>
    show Ok ttl max (serveCall w i room)
    unfold serveCall
    cases hc : w.calls[i]? with
    | none => exact h
    | some c =>
      dsimp only
      cases hphase : c.phase with
      | seen => exact h.seen hc hphase (halone c hc hphase)
      | enqueue =>
        dsimp only
        split
        · exact h.enqueue hc hphase
        · exact h.refuse hc hphase
      | take => exact h.take hc hphase
      | done status text => exact h

/-- A delivery that is not remembered is queued when it is sent and there is room. -/
theorem Ok.sendAgain (h : Ok ttl max w) (hid : id ∉ w.deliveries.memory.map Prod.fst) :
    (sendAgain w id).calls = w.calls ++ [⟨id, .done 202 "queued\n"⟩] := by
  have hnew : (w.deliveries.wasSeen id w.now).2 = false := by
    rw [← Bool.not_eq_true, Deliveries.wasSeen_refines h.consistent, seen_iff h.sorted]
    exact fun hin => hid (List.map_subset _ (expire_isSuffix _ _ _).subset hin)
  have hset : ∀ c d : Call, (w.calls ++ [c]).set w.calls.length d = w.calls ++ [d] := by simp
  have hget : ∀ c : Call, (w.calls ++ [c])[w.calls.length]? = some c := by simp
  unfold Webhook.sendAgain
  simp only [List.replicate, exec_cons, exec_nil, serveStep, serveCall, hget, hset, hnew,
    Bool.false_eq_true, if_false, if_true]

theorem Ok.queuedOnce (h : Ok ttl max w) : QueuedOnce ttl max w := by
  refine ⟨h.apart, fun pre id t post hlog hnone => ?_⟩
  have hid := h.refused pre id t post hlog hnone
  refine ⟨?_, h.sendAgain hid⟩
  rw [← Option.not_isSome_iff_eq_none, Deliveries.isSome_iff h.consistent]
  exact hid

end Invariant

/-- Every delivery is queued once in every run in which a call asks about it only while no other call
of it is between `Seen` and `Take`. -/
theorem queued_once (now ttl : ℤ) (max : ℕ) (run : List ServeStep)
    (h : Along serveStep AsksAlone (.start now ttl max) run) :
    QueuedOnce ttl max (exec serveStep (.start now ttl max) run) :=
  (exec_invariant (fun _ _ hok halone => Ok.step hok halone) (Ok.start now ttl max) h).queuedOnce

/-- A delivery refused, sent again and queued, and sent once more after another one. -/
def redelivered : List ServeStep :=
  [.begin "d1", .go 0 true, .go 0 false, .tick 5, .begin "d1", .go 1 true, .go 1 true, .go 1 true,
    .begin "d2", .go 2 true, .go 2 true, .go 2 true, .begin "d1", .go 3 true]

theorem queued_once_redelivered :
    QueuedOnce 100 10 (exec serveStep (.start 0 100 10) redelivered) ∧
    (exec serveStep (.start 0 100 10) redelivered).log =
      [.refused "d1" 0, .queued "d1" 5, .taken "d1" 5, .queued "d2" 5, .taken "d2" 5] :=
  ⟨queued_once 0 100 10 redelivered (by decide), by decide⟩

/-- Two calls of one delivery are told that it is new before either has recorded it. -/
def overlapped : List ServeStep :=
  [.begin "d1", .begin "d1", .go 0 true, .go 1 true, .go 0 true, .go 1 true, .go 0 true, .go 1 true]

theorem queued_twice : ¬ QueuedOnce 100 10 (exec serveStep (.start 0 100 10) overlapped) := by
  intro h
  have hlog : (exec serveStep (.start 0 100 10) overlapped).log = [] ++ Logged.queued "d1" 0 ::
      ([] ++ Logged.queued "d1" 0 :: [.taken "d1" 0, .taken "d1" 0]) := by decide
  rcases h.apart [] "d1" 0 [] 0 _ hlog with hold | ⟨others, -, hlength, hall⟩
  · exact absurd hold (by decide)
  · cases others with
    | nil => exact absurd hlength (by decide)
    | cons x others =>
      obtain ⟨-, t, ht⟩ := hall x (by simp)
      cases ht

end Kubeast.Webhook
