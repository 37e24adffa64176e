import Kubeast.TokenVersion.Check
import Mathlib.Tactic.Linarith

/-! When a revoked token stops. An entry is stamped with a clock read before the fetch that
filled it, so one stamped after a revocation holds the version from after it, whichever
request wrote it and however late. -/
namespace Kubeast.TokenVersion
open Transition

variable {cfg : Config} {u : UserID} {claimed T limit : ℤ} {s : Validator} {c : Check}

/-- The entry a check goes by. -/
def Phase.entry : Phase → Option TokenVersionEntry
  | .fetching cached | .fetched cached _ => cached
  | _ => none

/-- Every stamp is a clock reading of the past. -/
structure Stamped (s : Validator) : Prop where
  entries : ∀ k e, s.tv k = some e → e.fetched ≤ s.now
  checks : ∀ c ∈ s.checks, c.now ≤ s.now ∧ ∀ e, c.phase.entry = some e → e.fetched ≤ s.now

section Stamps

theorem entry_readCache {e : TokenVersionEntry} (h : (c.readCache cfg s.tv).entry = some e) :
    s.tv (cacheKey c.userID c.akid) = some e := by
  unfold Check.readCache at h
  split at h
  · cases h
  · next entry hentry =>
    split at h
    · cases h
    · rwa [hentry]

/-- A check goes on with an entry it had or one of the cache. -/
theorem Stamped.goOn {i : ℕ} {phase : Phase} (h : Stamped s) (hc : s.checks[i]? = some c)
    (hphase : ∀ e, phase.entry = some e → e.fetched ≤ s.now) : Stamped (s.goOn i c phase) := by
  refine ⟨h.entries, fun d hd => ?_⟩
  rcases List.mem_or_eq_of_mem_set hd with hd | rfl
  · exact h.checks d hd
  · exact ⟨(h.checks c (List.mem_of_getElem? hc)).1, hphase⟩

theorem stamped_readCache (i : ℕ) (h : Stamped s) : Stamped (s.readCache cfg i) := by
  unfold Validator.readCache
  split
  · next c hc =>
    split
    · exact h.goOn hc fun e he => h.entries _ e (entry_readCache he)
    · exact h
  · exact h

theorem stamped_serve (i : ℕ) (fate : Fate) (h : Stamped s) : Stamped (s.serve i fate) := by
  unfold Validator.serve
  split
  · next c hc =>
    split
    · next cached hphase =>
      apply h.goOn hc
      intro e he
      apply (h.checks c (List.mem_of_getElem? hc)).2
      rwa [hphase]
    · exact h
  · exact h

theorem fetched_store {k : String} {e : TokenVersionEntry} {r : Except FetchError ℤ}
    (h : c.store s.tv r k = some e) :
    s.tv k = some e ∨ (k = cacheKey c.userID c.akid ∧ ∃ v, r = .ok v ∧ e = ⟨v, c.now⟩) := by
  unfold Check.store at h
  split at h
  · next v =>
    rw [Function.update_apply] at h
    split at h
    · next hk => exact Or.inr ⟨hk, v, rfl, (Option.some.inj h).symm⟩
    · exact Or.inl h
  · split at h
    · rw [Function.update_apply] at h
      split at h
      · cases h
      · exact Or.inl h
    · exact Or.inl h

theorem stamped_finish (i : ℕ) (h : Stamped s) : Stamped (s.finish cfg i) := by
  unfold Validator.finish
  split
  · next c hc =>
    split
    · next cached reply hphase =>
      have hdone : Stamped (s.goOn i c (.done (c.verdict cfg cached (fetchTokenVersion reply)))) :=
        h.goOn hc fun e he => by cases he
      refine ⟨fun k e he => ?_, hdone.checks⟩
      rcases fetched_store he with he | ⟨-, v, -, rfl⟩
      · exact h.entries k e he
      · exact (h.checks c (List.mem_of_getElem? hc)).1
    · exact h
  · exact h

theorem stamped_step (a : Step) (h : Stamped s) : Stamped (step cfg s a) := by
  cases a with
  | tick d =>
    refine ⟨fun k e he => ?_, fun c hc => ?_⟩
    · exact (h.entries k e he).trans (by simp [step])
    · obtain ⟨hnow, hentry⟩ := h.checks c hc
      exact ⟨hnow.trans (by simp [step]), fun e he => (hentry e he).trans (by simp [step])⟩
  | bumpTokenVersion userID => exact ⟨h.entries, h.checks⟩
  | startCheck userID akid claimed =>
    refine ⟨h.entries, fun c hc => ?_⟩
    rcases List.mem_append.mp hc with hc | hc
    · exact h.checks c hc
    · obtain rfl := List.mem_singleton.mp hc
      exact ⟨le_rfl, by simp [Phase.entry]⟩
  | readCache i => exact stamped_readCache i h
  | serve i fate => exact stamped_serve i fate h
  | finish i => exact stamped_finish i h

theorem stamped_exec (cfg : Config) (now : ℤ) (stored : UserID → ℤ) (as : List Step) :
    Stamped (exec (step cfg) (Validator.start now stored) as) := by
  have hall : Along (step cfg) (fun _ _ => True) (Validator.start now stored) as :=
    Along.of_forall fun _ _ => trivial
  have hstart : Stamped (Validator.start now stored) :=
    ⟨fun _ _ he => (by cases he), fun _ hc => (by cases hc)⟩
  exact exec_invariant (fun s a h _ => stamped_step a h) hstart hall

end Stamps

/-- An entry stamped after `T` is ahead of the claim. -/
def TokenVersionEntry.Ahead (T claimed : ℤ) (e : TokenVersionEntry) : Prop :=
  T < e.fetched → claimed < e.version

/-- What a fetch of a check that started after `T` can have come back with. -/
def Ahead (cfg : Config) (claimed limit : ℤ) : Except FetchError ℤ → Prop
  | .ok v => claimed < v
  | .error e => e.isRevoked = true ∨ cfg.staleTTL ≤ limit

/-- A check on its way to refuse the claim, unless it started before `T + limit`. -/
def Check.Refuses (cfg : Config) (T claimed limit : ℤ) (c : Check) : Prop :=
  match c.phase with
  | .started => True
  | .fetching cached => ∀ e ∈ cached, e.Ahead T claimed
  | .fetched cached reply => (∀ e ∈ cached, e.Ahead T claimed) ∧
      (T < c.now → Ahead cfg claimed limit (fetchTokenVersion reply))
  | .done verdict => verdict = .ok () → c.claimed = claimed → c.now < T + limit

/-- What holds from a moment `T` on at which the user's stored version is above `claimed`. -/
structure Revoked (cfg : Config) (u : UserID) (claimed T limit : ℤ) (s : Validator) : Prop where
  stored : claimed < s.stored u
  entries : ∀ akid e, s.tv (cacheKey u akid) = some e → e.Ahead T claimed
  checks : ∀ c ∈ s.checks, c.userID = u → c.Refuses cfg T claimed limit

/-- auth-service was reached: it answered with the version, or refused the token. -/
def Fate.Reached : Fate → Prop
  | .answered => True
  | .failed status => status = 401 ∨ status = 403 ∨ status = 404
  | .lost => False

/-- Every fetch of a check that started after `T` reaches auth-service. -/
def Served (T : ℤ) (s : Validator) : Step → Prop
  | .serve i fate => ∀ c, s.checks[i]? = some c → T < c.now → fate.Reached
  | _ => True

section Checks
variable {cached : Option TokenVersionEntry} {r : Except FetchError ℤ}

theorem compareTokenVersion_ok {a b : ℤ} (h : compareTokenVersion a b = .ok ()) : a = b := by
  unfold compareTokenVersion at h
  split at h
  · cases h
  · next heq => exact not_not.mp heq

theorem fetchTokenVersion_failed (status : ℕ) :
    ∃ e, fetchTokenVersion (.response status none) = .error e ∧
      (status = 401 ∨ status = 403 ∨ status = 404 → e.isRevoked = true) := by
  unfold fetchTokenVersion
  dsimp only
  split
  · exact ⟨_, rfl, fun hstatus => by omega⟩
  · split
    · exact ⟨_, rfl, fun _ => rfl⟩
    · next hother => exact ⟨_, rfl, fun hstatus => absurd hstatus hother⟩

theorem ahead_reply {stored : ℤ} {fate : Fate} (hstored : claimed < stored)
    (hfate : cfg.staleTTL ≤ limit ∨ fate.Reached) :
    Ahead cfg claimed limit (fetchTokenVersion (fate.reply stored)) := by
  cases fate with
  | answered => exact hstored
  | failed status =>
    obtain ⟨e, he, hrevoked⟩ := fetchTokenVersion_failed status
    show Ahead cfg claimed limit (fetchTokenVersion (.response status none))
    rw [he]
    exact hfate.symm.imp_left hrevoked
  | lost => exact Or.inr (hfate.resolve_right id)

/-- What a check reads of the cache. -/
theorem refuses_readCache (hlimit : cfg.cacheTTL ≤ limit)
    (htv : ∀ e, s.tv (cacheKey c.userID c.akid) = some e → e.Ahead T claimed) :
    Check.Refuses cfg T claimed limit { c with phase := c.readCache cfg s.tv } := by
  unfold Check.readCache
  split
  · intro e he
    cases he
  · next entry hentry =>
    split
    · next husable =>
      intro hok hclaimed
      have hversion := compareTokenVersion_ok hok
      have hfresh : c.now - entry.fetched < cfg.cacheTTL := by
        unfold Config.usable at husable
        rw [Bool.and_eq_true] at husable
        exact of_decide_eq_true husable.1
      have hold : entry.fetched ≤ T := by
        by_contra hnew
        have hahead : claimed < entry.version := htv entry hentry (by omega)
        have hclaimed' : c.claimed = claimed := hclaimed
        omega
      show c.now < T + limit
      omega
    · intro e he
      obtain rfl := Option.some.inj he
      exact htv entry hentry

/-- What a check makes of its fetch. -/
theorem refuses_verdict (hpos : 0 < limit) (hcached : ∀ e ∈ cached, e.Ahead T claimed)
    (hr : T < c.now → Ahead cfg claimed limit r) :
    Check.Refuses cfg T claimed limit { c with phase := .done (c.verdict cfg cached r) } := by
  intro hok hclaimed
  by_contra hlate
  have hlate' : T + limit ≤ c.now := by simpa using hlate
  have hclaimed' : c.claimed = claimed := hclaimed
  specialize hr (by omega)
  cases r with
  | ok v =>
    have hversion := compareTokenVersion_ok hok
    unfold Ahead at hr
    omega
  | error e =>
    unfold Check.verdict at hok
    dsimp only at hok
    split_ifs at hok with hrevoked
    have hstale : cfg.staleTTL ≤ limit := hr.resolve_left hrevoked
    cases cached with
    | none => cases hok
    | some entry =>
      dsimp only at hok
      split_ifs at hok with hfresh hbehind
      have hahead : claimed < entry.version := hcached entry rfl (by omega)
      omega

end Checks

section Steps

theorem Revoked.goOn {i : ℕ} {phase : Phase} (h : Revoked cfg u claimed T limit s)
    (hphase : c.userID = u → Check.Refuses cfg T claimed limit { c with phase := phase }) :
    Revoked cfg u claimed T limit (s.goOn i c phase) := by
  refine ⟨h.stored, h.entries, fun d hd => ?_⟩
  rcases List.mem_or_eq_of_mem_set hd with hd | rfl
  · exact h.checks d hd
  · exact hphase

theorem revoked_readCache (hlimit : cfg.cacheTTL ≤ limit) (i : ℕ)
    (h : Revoked cfg u claimed T limit s) : Revoked cfg u claimed T limit (s.readCache cfg i) := by
  unfold Validator.readCache
  split
  · next c hc =>
    split
    · apply h.goOn
      intro huser
      apply refuses_readCache hlimit
      intro e he
      exact h.entries c.akid e (huser ▸ he)
    · exact h
  · exact h

theorem revoked_serve {i : ℕ} {fate : Fate} (h : Revoked cfg u claimed T limit s)
    (hserved : cfg.staleTTL ≤ limit ∨ Served T s (.serve i fate)) :
    Revoked cfg u claimed T limit (s.serve i fate) := by
  unfold Validator.serve
  split
  · next c hc =>
    split
    · next cached hphase =>
      apply h.goOn
      intro huser
      have hbefore := h.checks c (List.mem_of_getElem? hc) huser
      unfold Check.Refuses at hbefore
      rw [hphase] at hbefore
      refine ⟨hbefore, fun hlater => ?_⟩
      rw [huser]
      exact ahead_reply h.stored (hserved.imp id fun hreached => hreached c hc hlater)
    · exact h
  · exact h

/-- The entry a check leaves bears its own clock and the version of its own fetch. -/
theorem revoked_finish (hpos : 0 < limit) (i : ℕ) (h : Revoked cfg u claimed T limit s) :
    Revoked cfg u claimed T limit (s.finish cfg i) := by
  unfold Validator.finish
  split
  · next c hc =>
    split
    · next cached reply hphase =>
      have hbefore : c.userID = u → (∀ e ∈ cached, e.Ahead T claimed) ∧
          (T < c.now → Ahead cfg claimed limit (fetchTokenVersion reply)) := by
        intro huser
        have hrefuses := h.checks c (List.mem_of_getElem? hc) huser
        unfold Check.Refuses at hrefuses
        rwa [hphase] at hrefuses
      refine ⟨h.stored, fun akid e he => ?_, (h.goOn fun huser => ?_).checks⟩
      · rcases fetched_store he with he | ⟨hk, v, hv, rfl⟩
        · exact h.entries akid e he
        · intro hlater
          have hahead := (hbefore (userID_of_cacheKey_eq hk).symm).2 hlater
          rwa [hv] at hahead
      · exact refuses_verdict hpos (hbefore huser).1 (hbefore huser).2
    · exact h
  · exact h

theorem revoked_step (hpos : 0 < limit) (hlimit : cfg.cacheTTL ≤ limit) (a : Step)
    (h : Revoked cfg u claimed T limit s) (hserved : cfg.staleTTL ≤ limit ∨ Served T s a) :
    Revoked cfg u claimed T limit (step cfg s a) := by
  cases a with
  | tick d => exact ⟨h.stored, h.entries, h.checks⟩
  | bumpTokenVersion userID =>
    refine ⟨?_, h.entries, h.checks⟩
    have hstored := h.stored
    show claimed < Function.update s.stored userID (s.stored userID + 1) u
    rw [Function.update_apply]
    split
    · next hu => rw [hu] at hstored; omega
    · exact hstored
  | startCheck userID akid version =>
    refine ⟨h.stored, h.entries, fun c hc => ?_⟩
    rcases List.mem_append.mp hc with hc | hc
    · exact h.checks c hc
    · obtain rfl := List.mem_singleton.mp hc
      exact fun _ => trivial
  | readCache i => exact revoked_readCache hlimit i h
  | serve i fate => exact revoked_serve h hserved
  | finish i => exact revoked_finish hpos i h

/-- At the moment itself nothing bears a later stamp. -/
theorem Stamped.revoked (hpos : 0 < limit) (h : Stamped s) (hstored : claimed < s.stored u) :
    Revoked cfg u claimed s.now limit s := by
  refine ⟨hstored, fun akid e he => ?_, fun c hc _ => ?_⟩
  · intro hlater
    have hstamp := h.entries _ e he
    omega
  · obtain ⟨hnow, hentry⟩ := h.checks c hc
    have hahead : ∀ e, c.phase.entry = some e → e.Ahead s.now claimed := by
      intro e he hlater
      have hstamp := hentry e he
      omega
    unfold Check.Refuses
    split
    · trivial
    · next cached hphase => exact fun e he => hahead e (by rw [hphase]; exact he)
    · next cached reply hphase =>
      exact ⟨fun e he => hahead e (by rw [hphase]; exact he), fun hlater => by omega⟩
    · intro _ _
      omega

theorem accepted_before (hpos : 0 < limit) (hlimit : cfg.cacheTTL ≤ limit) (h : Stamped s)
    (hstored : claimed < s.stored u) {bs : List Step}
    (hserved : Along (step cfg) (fun t a => cfg.staleTTL ≤ limit ∨ Served s.now t a) s bs)
    (hc : c ∈ (exec (step cfg) s bs).checks) (huser : c.userID = u) (hclaimed : c.claimed = claimed)
    (haccepted : c.phase = .done (.ok ())) : c.now < s.now + limit := by
  have hrevoked := exec_invariant (fun t a ht hg => revoked_step hpos hlimit a ht hg)
    (h.revoked hpos hstored) hserved
  have hrefuses := hrevoked.checks c hc huser
  unfold Check.Refuses at hrefuses
  rw [haccepted] at hrefuses
  exact hrefuses rfl hclaimed

end Steps

/-- A token whose version is behind the stored one at the end of `as` is accepted by no check
that starts `staleTTL` later, and by none that starts `cacheTTL` later when the fetches after
that moment succeed. -/
theorem revoked_token_refused (cfg : Config) (httl : cfg.cacheTTL ≤ cfg.staleTTL) (now : ℤ)
    (stored : UserID → ℤ) (as bs : List Step) (userID : UserID) (claimed : ℤ)
    (hbehind : claimed < (exec (step cfg) (Validator.start now stored) as).stored userID)
    (c : Check) (hc : c ∈ (exec (step cfg) (Validator.start now stored) (as ++ bs)).checks)
    (huser : c.userID = userID) (hclaimed : c.claimed = claimed)
    (haccepted : c.phase = .done (.ok ())) :
    c.now < (exec (step cfg) (Validator.start now stored) as).now + cfg.staleTTL ∧
      (Along (step cfg) (Served (exec (step cfg) (Validator.start now stored) as).now)
        (exec (step cfg) (Validator.start now stored) as) bs →
      c.now < (exec (step cfg) (Validator.start now stored) as).now + cfg.cacheTTL) := by
  have hstamped := stamped_exec cfg now stored as
  rw [exec_append] at hc
  generalize exec (step cfg) (Validator.start now stored) as = s at *
  constructor
  · have hserved : Along (step cfg) (fun t a => cfg.staleTTL ≤ cfg.staleTTL ∨ Served s.now t a)
        s bs := Along.of_forall fun t a => Or.inl le_rfl
    exact accepted_before cfg.staleTTL_pos httl hstamped hbehind hserved hc huser hclaimed haccepted
  · intro hall
    have hserved : Along (step cfg) (fun t a => cfg.staleTTL ≤ cfg.cacheTTL ∨ Served s.now t a)
        s bs := hall.mono fun t a hta => Or.inr hta
    exact accepted_before cfg.cacheTTL_pos le_rfl hstamped hbehind hserved hc huser hclaimed
      haccepted

def alice : UserID := ⟨"alice", by decide⟩

/-- A check caches alice's version, which then goes up. -/
def cachedThenBumped : List Step :=
  [.startCheck alice "" 0, .readCache 0, .serve 0 .answered, .finish 0, .tick 1,
   .bumpTokenVersion alice]

/-- A second check of the old token, still within the cache's time. -/
theorem revoked_token_refused_alice : (1 : ℤ) < 1 + 300000000000 :=
  (revoked_token_refused (newJWTValidator 0 0) (by decide) 0 (fun _ => 0) cachedThenBumped
    [.startCheck alice "" 0, .readCache 1] alice 0 (by decide)
    ⟨alice, "", 0, 1, .done (.ok ())⟩ (List.mem_of_getElem? (i := 1) rfl) rfl rfl rfl).1

end Kubeast.TokenVersion
