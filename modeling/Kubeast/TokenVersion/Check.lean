import Kubeast.Foundation.Transition
import Mathlib.Data.Int.Notation
import Mathlib.Data.List.TakeWhile
import Mathlib.Logic.Function.Basic

/-! The token version check of the services behind auth-service
(`pkg/auth/token_version.go`), taken step by step by any number of requests that share one
cache. Times are in nanoseconds. -/
namespace Kubeast.TokenVersion

/-- `JWKSConfig` as `NewJWTValidator` leaves it: a time that is not positive gets its default. -/
structure Config where
  cacheTTL : ℤ
  staleTTL : ℤ
  cacheTTL_pos : 0 < cacheTTL
  staleTTL_pos : 0 < staleTTL

def newJWTValidator (cacheTTL staleTTL : ℤ) : Config where
  cacheTTL := if cacheTTL ≤ 0 then 30000000000 else cacheTTL
  staleTTL := if staleTTL ≤ 0 then 300000000000 else staleTTL
  cacheTTL_pos := by split <;> omega
  staleTTL_pos := by split <;> omega

/-- An account's id, a UUID; what the cache's keys rest on is that it has no bar. -/
structure UserID where
  id : String
  noBar : '|' ∉ id.toList
deriving DecidableEq

structure TokenVersionEntry where
  version : ℤ
  fetched : ℤ
deriving DecidableEq

/-- What comes back of a request to auth-service; `tv` is the decoded body. -/
inductive FetchReply
  | lost
  | response (status : ℕ) (tv : Option ℤ)

inductive FetchError
  | transport
  | status (code : ℕ)
  | decode
  | revoked (code : ℕ)
deriving DecidableEq

/-- `fetchTokenVersion`: 401, 403 and 404 mean that the token or the user is gone. -/
def fetchTokenVersion : FetchReply → Except FetchError ℤ
  | .lost => .error .transport
  | .response status tv =>
      if status = 200 then tv.elim (.error .decode) .ok
      else if status = 401 ∨ status = 403 ∨ status = 404 then .error (.revoked status)
      else .error (.status status)

def FetchError.isRevoked : FetchError → Bool
  | .revoked _ => true
  | _ => false

/-- A check's error: `ErrTokenRevoked`, the one that auth-service answered with, or no version
to go by. -/
inductive CheckError
  | revoked
  | refused (e : FetchError)
  | unavailable (e : FetchError)
deriving DecidableEq

def compareTokenVersion (claimed current : ℤ) : Except CheckError Unit :=
  if claimed ≠ current then .error .revoked else .ok ()

/-- A token of an API key is cached apart from the user's other tokens. -/
def cacheKey (userID : UserID) (akid : String) : String :=
  if akid ≠ "" then userID.id ++ "|" ++ akid else userID.id

/-- Where a check stands, with the entry it read of the cache. -/
inductive Phase
  | started
  | fetching (cached : Option TokenVersionEntry)
  | fetched (cached : Option TokenVersionEntry) (reply : FetchReply)
  | done (verdict : Except CheckError Unit)

/-- One call of `checkTokenVersion`; `now` is the clock it read first. -/
structure Check where
  userID : UserID
  akid : String
  claimed : ℤ
  now : ℤ
  phase : Phase

/-- The clock, the versions that auth-service stores, a validator's cache, and the checks so
far. -/
structure Validator where
  now : ℤ
  stored : UserID → ℤ
  tv : String → Option TokenVersionEntry
  checks : List Check

def Validator.start (now : ℤ) (stored : UserID → ℤ) : Validator := ⟨now, stored, fun _ => none, []⟩

/-- A cached version is compared without asking when it is fresh and not behind the claim. -/
def Config.usable (cfg : Config) (now claimed : ℤ) (entry : TokenVersionEntry) : Bool :=
  decide (now - entry.fetched < cfg.cacheTTL) && decide (claimed ≤ entry.version)

/-- The read of the cache. -/
def Check.readCache (cfg : Config) (tv : String → Option TokenVersionEntry) (c : Check) : Phase :=
  match tv (cacheKey c.userID c.akid) with
  | none => .fetching none
  | some entry =>
      if cfg.usable c.now c.claimed entry = true then
        .done (compareTokenVersion c.claimed entry.version)
      else .fetching (some entry)

/-- The verdict once the fetch is back. An error other than a refusal counts as an outage. -/
def Check.verdict (cfg : Config) (c : Check) (cached : Option TokenVersionEntry) :
    Except FetchError ℤ → Except CheckError Unit
  | .ok current => compareTokenVersion c.claimed current
  | .error e =>
      if e.isRevoked = true then .error (.refused e)
      else match cached with
        | none => .error (.unavailable e)
        | some entry =>
            if c.now - entry.fetched < cfg.staleTTL then
              if c.claimed < entry.version then .error .revoked else .ok ()
            else .error (.unavailable e)

/-- The cache once the fetch is back. An entry bears the clock the check read first. -/
def Check.store (c : Check) (tv : String → Option TokenVersionEntry) :
    Except FetchError ℤ → String → Option TokenVersionEntry
  | .ok current => Function.update tv (cacheKey c.userID c.akid) (some ⟨current, c.now⟩)
  | .error e => if e.isRevoked = true then Function.update tv (cacheKey c.userID c.akid) none else tv

/-- What becomes of a fetch: auth-service answers with the version it stores, or with another
status, or nothing usable comes back. -/
inductive Fate
  | answered
  | failed (status : ℕ)
  | lost

def Fate.reply (stored : ℤ) : Fate → FetchReply
  | .answered => .response 200 (some stored)
  | .failed status => .response status none
  | .lost => .lost

inductive Step
  | tick (d : ℕ)
  | bumpTokenVersion (userID : UserID)
  | startCheck (userID : UserID) (akid : String) (claimed : ℤ)
  | readCache (i : ℕ)
  | serve (i : ℕ) (fate : Fate)
  | finish (i : ℕ)

namespace Validator

/-- One check goes on to its next phase. -/
def goOn (s : Validator) (i : ℕ) (c : Check) (phase : Phase) : Validator :=
  { s with checks := s.checks.set i { c with phase := phase } }

def readCache (cfg : Config) (s : Validator) (i : ℕ) : Validator :=
  match s.checks[i]? with
  | some c =>
      match c.phase with
      | .started => s.goOn i c (c.readCache cfg s.tv)
      | _ => s
  | none => s

/-- The moment auth-service reads its table. -/
def serve (s : Validator) (i : ℕ) (fate : Fate) : Validator :=
  match s.checks[i]? with
  | some c =>
      match c.phase with
      | .fetching cached => s.goOn i c (.fetched cached (fate.reply (s.stored c.userID)))
      | _ => s
  | none => s

def finish (cfg : Config) (s : Validator) (i : ℕ) : Validator :=
  match s.checks[i]? with
  | some c =>
      match c.phase with
      | .fetched cached reply =>
          { s.goOn i c (.done (c.verdict cfg cached (fetchTokenVersion reply))) with
            tv := c.store s.tv (fetchTokenVersion reply) }
      | _ => s
  | none => s

end Validator

def step (cfg : Config) (s : Validator) : Step → Validator
  | .tick d => { s with now := s.now + d }
  | .bumpTokenVersion userID =>
      { s with stored := Function.update s.stored userID (s.stored userID + 1) }
  | .startCheck userID akid claimed =>
      { s with checks := s.checks ++ [⟨userID, akid, claimed, s.now, .started⟩] }
  | .readCache i => s.readCache cfg i
  | .serve i fate => s.serve i fate
  | .finish i => s.finish cfg i

section Key

theorem takeWhile_cacheKey (userID : UserID) (akid : String) :
    (cacheKey userID akid).toList.takeWhile (· ≠ '|') = userID.id.toList := by
  have hbar : ∀ c ∈ userID.id.toList, decide (c ≠ '|') = true := by
    intro c hc
    rw [decide_eq_true_eq]
    rintro rfl
    exact userID.noBar hc
  unfold cacheKey
  split
  · rw [String.toList_append, String.toList_append, List.append_assoc,
      List.takeWhile_append_of_pos hbar]
    simp
  · exact List.takeWhile_eq_self_iff.mpr hbar

/-- One key belongs to one user. -/
theorem userID_of_cacheKey_eq {u u' : UserID} {akid akid' : String}
    (h : cacheKey u akid = cacheKey u' akid') : u = u' := by
  have hid : u.id = u'.id := by
    rw [← String.toList_inj, ← takeWhile_cacheKey u akid, h, takeWhile_cacheKey]
  cases u
  cases u'
  subst hid
  rfl

end Key
end Kubeast.TokenVersion
