import Kubeast.TokenVersion.Revoked

/-! Connections that stay open past their token (`pkg/auth/live_session.go`). Any number of them share one
cache of versions, and each asks again, step by step, whether its session stands. Times are in nanoseconds. -/
namespace Kubeast.LiveSessions
open TokenVersion Transition

/-- `LiveSessionConfig` as `NewLiveSessions` leaves it. An absolute lifetime of zero is no cap. -/
structure Config where
  absoluteLifetime : ℤ
  cacheTTL : ℤ
  staleTTL : ℤ
  cacheTTL_pos : 0 < cacheTTL
  staleTTL_pos : 0 < staleTTL

/-- A time that is not set takes its default. -/
def orDefault (default ttl : ℤ) : ℤ := if ttl ≤ 0 then default else ttl

theorem orDefault_pos {default : ℤ} (h : 0 < default) (ttl : ℤ) : 0 < orDefault default ttl := by
  unfold orDefault
  split <;> omega

theorem thirtySeconds_pos : (0 : ℤ) < 30000000000 := by decide

theorem fiveMinutes_pos : (0 : ℤ) < 300000000000 := by decide

def newLiveSessions (absoluteLifetime cacheTTL staleTTL : ℤ) : Config where
  absoluteLifetime := absoluteLifetime
  cacheTTL := orDefault 30000000000 cacheTTL
  staleTTL := orDefault 300000000000 staleTTL
  cacheTTL_pos := orDefault_pos thirtySeconds_pos cacheTTL
  staleTTL_pos := orDefault_pos fiveMinutes_pos staleTTL

def second : ℤ := 1000000000

/-- `TokenPayload`, as a check reads it; the two times are in seconds. -/
structure TokenPayload where
  system : String
  userID : UserID
  apiKeyID : String
  tokenVersion : ℤ
  authTime : ℤ
  expiresAt : ℤ

def TokenPayload.key (p : TokenPayload) : String := cacheKey p.userID p.apiKeyID

/-- Why a session ended. -/
inductive Code
  | revoked
  | expired
  | unverified
deriving DecidableEq

inductive Verdict
  | stands
  | ended (code : Code)
  | unread
deriving DecidableEq

inductive LookupError
  | subjectGone
  | failed
deriving DecidableEq

def versionVerdict (claimed current : ℤ) : Verdict :=
  if claimed ≠ current then .ended .revoked else .stands

/-- Where the watch of a connection stands: with the clock that the check read first, the entry it read of the
cache, and whether the row of the API key is read. -/
inductive Phase
  | waiting
  | clocked (now : ℤ)
  | asking (now : ℤ) (cached : Option TokenVersionEntry) (keyRead : Bool)
  | answered (now : ℤ) (cached : Option TokenVersionEntry) (reply : Except LookupError ℤ)
  | checked (now : ℤ) (verdict : Verdict)
  | stopped

/-- A held connection; its cause is why the session ended it. -/
structure Conn where
  payload : TokenPayload
  verified : ℤ
  released : Bool
  cause : Option Code
  phase : Phase

abbrev Versions := String → Option TokenVersionEntry

/-- The clock, the rows that a lookup reads (the users' versions and when the API keys expire), the cache, and the
connections. -/
structure Server where
  now : ℤ
  users : UserID → Option ℤ
  keys : UserID → String → Option ℤ
  versions : Versions
  conns : List Conn

def Server.start (now : ℤ) (users : UserID → Option ℤ) (keys : UserID → String → Option ℤ) : Server :=
  ⟨now, users, keys, fun _ => none, []⟩

section Check
variable (cfg : Config) (p : TokenPayload)

/-- Past the absolute lifetime since the last sign-in. -/
def TokenPayload.outlived (now : ℤ) : Prop :=
  0 < cfg.absoluteLifetime ∧ 0 < p.authTime ∧ cfg.absoluteLifetime < now - p.authTime * second

instance (now : ℤ) : Decidable (p.outlived cfg now) :=
  inferInstanceAs (Decidable (_ ∧ _ ∧ _))

/-- `check`, before the cache. -/
def TokenPayload.look (now : ℤ) : Phase :=
  if p.system ≠ "" then
    .checked now (if 0 < p.expiresAt ∧ p.expiresAt ≤ now / second then .ended .expired else .stands)
  else if p.outlived cfg now then .checked now (.ended .expired)
  else .clocked now

def TokenPayload.readCache (versions : Versions) (now : ℤ) : Phase :=
  match versions p.key with
  | some entry =>
    if now - entry.fetched < cfg.cacheTTL ∧ p.tokenVersion ≤ entry.version then
      .checked now (versionVerdict p.tokenVersion entry.version)
    else .asking now (some entry) false
  | none => .asking now none false

/-- Whether the database answers. -/
inductive Fate
  | answered
  | failed
deriving DecidableEq

/-- The row of the API key: gone, or expired, ends the lookup. -/
def TokenPayload.serveKey (s : Server) (now : ℤ) (cached : Option TokenVersionEntry) : Fate → Phase
  | .failed => .answered now cached (.error .failed)
  | .answered =>
    match s.keys p.userID p.apiKeyID with
    | some expires => if s.now < expires then .asking now cached true else .answered now cached (.error .subjectGone)
    | none => .answered now cached (.error .subjectGone)

/-- The row of the user. -/
def TokenPayload.serve (s : Server) (now : ℤ) (cached : Option TokenVersionEntry) : Fate → Phase
  | .failed => .answered now cached (.error .failed)
  | .answered => .answered now cached ((s.users p.userID).elim (.error .subjectGone) .ok)

def TokenPayload.verdict (cached : Option TokenVersionEntry) : Except LookupError ℤ → Verdict
  | .ok current => versionVerdict p.tokenVersion current
  | .error .subjectGone => .ended .revoked
  | .error .failed =>
    match cached with
    | some entry => if p.tokenVersion < entry.version then .ended .revoked else .unread
    | none => .unread

/-- `remember`: what is past the stale window goes. -/
def remember (versions : Versions) (key : String) (version now : ℤ) : Versions :=
  Function.update (fun k => (versions k).filter fun e => decide (now - e.fetched ≤ cfg.staleTTL)) key
    (some ⟨version, now⟩)

/-- The cache once the lookup is back. -/
def TokenPayload.store (versions : Versions) (now : ℤ) : Except LookupError ℤ → Versions
  | .ok current => remember cfg versions p.key current now
  | .error .subjectGone => Function.update versions p.key none
  | .error .failed => versions

end Check

section Watch

/-- `end`, and the watch returns: a connection that is released is not ended by its session. -/
def Conn.ends (c : Conn) (code : Code) : Conn :=
  { c with cause := if c.released then c.cause else some code, phase := .stopped }

/-- What the watch makes of a check. -/
def Conn.decide (cfg : Config) (now : ℤ) (c : Conn) : Verdict → Conn
  | .stands => { c with verified := now, phase := .waiting }
  | .unread =>
    if c.released = false ∧ cfg.staleTTL < now - c.verified then c.ends .unverified
    else { c with phase := .waiting }
  | .ended code => c.ends code

inductive Act
  | look
  | readCache
  | serveKey (fate : Fate)
  | serve (fate : Fate)
  | finish
  | decide
  | release
deriving DecidableEq

def Conn.act (cfg : Config) (s : Server) (c : Conn) (a : Act) : Conn :=
  match a, c.phase with
  | .look, .waiting => { c with phase := c.payload.look cfg s.now }
  | .readCache, .clocked now => { c with phase := c.payload.readCache cfg s.versions now }
  | .serveKey fate, .asking now cached false =>
    if c.payload.apiKeyID = "" then c else { c with phase := c.payload.serveKey s now cached fate }
  | .serve fate, .asking now cached keyRead =>
    if c.payload.apiKeyID = "" ∨ keyRead = true then { c with phase := c.payload.serve s now cached fate } else c
  | .finish, .answered now cached reply => { c with phase := .checked now (c.payload.verdict cached reply) }
  | .decide, .checked _ verdict => c.decide cfg s.now verdict
  | .release, _ => { c with released := true }
  | _, _ => c

/-- The cache after what a connection does. -/
def Conn.stored (cfg : Config) (versions : Versions) (c : Conn) (a : Act) : Versions :=
  match a, c.phase with
  | .finish, .answered now _ reply => c.payload.store cfg versions now reply
  | _, _ => versions

inductive Step
  | tick (d : ℕ)
  | bumpTokenVersion (userID : UserID)
  | removeUser (userID : UserID)
  | setKey (userID : UserID) (apiKeyID : String) (expires : Option ℤ)
  | hold (p : TokenPayload)
  | act (i : ℕ) (a : Act)

def step (cfg : Config) (s : Server) : Step → Server
  | .tick d => { s with now := s.now + d }
  | .bumpTokenVersion u => { s with users := Function.update s.users u ((s.users u).map (· + 1)) }
  | .removeUser u => { s with users := Function.update s.users u none }
  | .setKey u akid expires => { s with keys := Function.update s.keys u (Function.update (s.keys u) akid expires) }
  | .hold p => { s with conns := s.conns ++ [⟨p, s.now, false, none, .waiting⟩] }
  | .act i a =>
    match s.conns[i]? with
    | some c => { s with conns := s.conns.set i (c.act cfg s a), versions := c.stored cfg s.versions a }
    | none => s

end Watch

section Acts
variable {cfg : Config} {s : Server} {c : Conn} {p : TokenPayload} {versions : Versions} {now : ℤ}
  {cached : Option TokenVersionEntry} {reply : Except LookupError ℤ} {e : TokenVersionEntry} {k : String}

/-- What an act makes of a connection, and of the cache. -/
inductive Next (cfg : Config) (s : Server) (c : Conn) : Act → Conn → Versions → Prop
  | same (a : Act) : Next cfg s c a c s.versions
  | look : c.phase = .waiting → Next cfg s c .look { c with phase := c.payload.look cfg s.now } s.versions
  | readCache (now : ℤ) : c.phase = .clocked now →
      Next cfg s c .readCache { c with phase := c.payload.readCache cfg s.versions now } s.versions
  | serveKey (fate : Fate) (now : ℤ) (cached : Option TokenVersionEntry) : c.phase = .asking now cached false →
      c.payload.apiKeyID ≠ "" →
      Next cfg s c (.serveKey fate) { c with phase := c.payload.serveKey s now cached fate } s.versions
  | serve (fate : Fate) (now : ℤ) (cached : Option TokenVersionEntry) (keyRead : Bool) :
      c.phase = .asking now cached keyRead →
      Next cfg s c (.serve fate) { c with phase := c.payload.serve s now cached fate } s.versions
  | finish (now : ℤ) (cached : Option TokenVersionEntry) (reply : Except LookupError ℤ) :
      c.phase = .answered now cached reply →
      Next cfg s c .finish { c with phase := .checked now (c.payload.verdict cached reply) }
        (c.payload.store cfg s.versions now reply)
  | decide (now : ℤ) (verdict : Verdict) : c.phase = .checked now verdict →
      Next cfg s c .decide (c.decide cfg s.now verdict) s.versions
  | release : Next cfg s c .release { c with released := true } s.versions

theorem act_next (cfg : Config) (s : Server) (c : Conn) (a : Act) :
    Next cfg s c a (c.act cfg s a) (c.stored cfg s.versions a) := by
  cases a with
  | release => exact .release
  | look =>
    cases hphase : c.phase <;> simp only [Conn.act, Conn.stored, hphase] <;>
      first | exact .look hphase | exact .same _
  | readCache =>
    cases hphase : c.phase <;> simp only [Conn.act, Conn.stored, hphase] <;>
      first | exact .readCache _ hphase | exact .same _
  | serveKey fate =>
    cases hphase : c.phase with
    | asking now cached keyRead =>
      cases keyRead <;> simp only [Conn.act, Conn.stored, hphase]
      · split_ifs with hkey
        · exact .same _
        · exact .serveKey fate now cached hphase hkey
      · exact .same _
    | _ => simp only [Conn.act, Conn.stored, hphase]; exact .same _
  | serve fate =>
    cases hphase : c.phase with
    | asking now cached keyRead =>
      simp only [Conn.act, Conn.stored, hphase]
      split_ifs with hready
      · exact .serve fate now cached keyRead hphase
      · exact .same _
    | _ => simp only [Conn.act, Conn.stored, hphase]; exact .same _
  | finish =>
    cases hphase : c.phase <;> simp only [Conn.act, Conn.stored, hphase] <;>
      first | exact .finish _ _ _ hphase | exact .same _
  | decide =>
    cases hphase : c.phase <;> simp only [Conn.act, Conn.stored, hphase] <;>
      first | exact .decide _ _ hphase | exact .same _

/-- The clock that the check read. -/
def Phase.clock : Phase → Option ℤ
  | .clocked now | .asking now _ _ | .answered now _ _ | .checked now _ => some now
  | .waiting | .stopped => none

/-- The entries that a check goes by: the one of the cache, and the one that it has yet to store. -/
def Phase.entries : Phase → List TokenVersionEntry
  | .asking _ cached _ => cached.toList
  | .answered now cached (.ok v) => ⟨v, now⟩ :: cached.toList
  | .answered _ cached (.error _) => cached.toList
  | _ => []

theorem look_cases (cfg : Config) (p : TokenPayload) (now : ℤ) :
    p.system = "" ∧ ¬ p.outlived cfg now ∧ p.look cfg now = .clocked now ∨
      (p.system ≠ "" ∨ p.outlived cfg now) ∧ p.look cfg now = .checked now (.ended .expired) ∨
      p.system ≠ "" ∧ p.look cfg now = .checked now .stands := by
  unfold TokenPayload.look
  split_ifs <;> simp_all

theorem readCache_cases (cfg : Config) (p : TokenPayload) (versions : Versions) (now : ℤ) :
    (∃ e, versions p.key = some e ∧ now - e.fetched < cfg.cacheTTL ∧ p.tokenVersion ≤ e.version ∧
      p.readCache cfg versions now = .checked now (versionVerdict p.tokenVersion e.version)) ∨
      p.readCache cfg versions now = .asking now (versions p.key) false := by
  unfold TokenPayload.readCache
  split
  · next e he =>
    split_ifs with hfresh
    · exact .inl ⟨e, he, hfresh.1, hfresh.2, rfl⟩
    · exact .inr (by rw [he])
  · next he => exact .inr (by rw [he])

theorem serveKey_cases (p : TokenPayload) (s : Server) (now : ℤ) (cached : Option TokenVersionEntry) (fate : Fate) :
    p.serveKey s now cached fate = .asking now cached true ∨
      fate = .failed ∧ p.serveKey s now cached fate = .answered now cached (.error .failed) ∨
      (∀ expires, s.keys p.userID p.apiKeyID = some expires → expires ≤ s.now) ∧
        p.serveKey s now cached fate = .answered now cached (.error .subjectGone) := by
  cases fate with
  | failed => exact .inr (.inl ⟨rfl, rfl⟩)
  | answered =>
    simp only [TokenPayload.serveKey]
    split
    · next expires hkey =>
      split_ifs with hlive
      · exact .inl rfl
      · simp_all
    · simp_all

theorem serve_cases (p : TokenPayload) (s : Server) (now : ℤ) (cached : Option TokenVersionEntry) (fate : Fate) :
    (∃ v, s.users p.userID = some v ∧ p.serve s now cached fate = .answered now cached (.ok v)) ∨
      fate = .failed ∧ p.serve s now cached fate = .answered now cached (.error .failed) ∨
      s.users p.userID = none ∧ p.serve s now cached fate = .answered now cached (.error .subjectGone) := by
  cases fate with
  | failed => exact .inr (.inl ⟨rfl, rfl⟩)
  | answered => cases huser : s.users p.userID <;> simp [TokenPayload.serve, huser]

theorem versionVerdict_cases (claimed current : ℤ) :
    claimed = current ∧ versionVerdict claimed current = .stands ∨
      claimed ≠ current ∧ versionVerdict claimed current = .ended .revoked := by
  unfold versionVerdict
  split_ifs with h
  · exact .inr ⟨h, rfl⟩
  · exact .inl ⟨not_not.mp h, rfl⟩

theorem verdict_stands : p.verdict cached reply = .stands ↔ reply = .ok p.tokenVersion := by
  rcases reply with (_ | _) | current
  · simp [TokenPayload.verdict]
  · simp only [TokenPayload.verdict]
    split
    · split_ifs <;> simp
    · simp
  · rcases versionVerdict_cases p.tokenVersion current with ⟨rfl, h⟩ | ⟨hne, h⟩
    · simp [TokenPayload.verdict, h]
    · simp [TokenPayload.verdict, h, hne.symm]

theorem verdict_unread (h : p.verdict cached reply = .unread) : reply = .error .failed := by
  rcases reply with (_ | _) | current
  · cases h
  · rfl
  · rcases versionVerdict_cases p.tokenVersion current with ⟨-, heq⟩ | ⟨-, heq⟩ <;>
      simp [TokenPayload.verdict, heq] at h

theorem decide_cases (cfg : Config) (now : ℤ) (c : Conn) (verdict : Verdict) :
    verdict = .stands ∧ c.decide cfg now verdict = { c with verified := now, phase := .waiting } ∨
      verdict = .unread ∧ (c.released = true ∨ now - c.verified ≤ cfg.staleTTL) ∧
        c.decide cfg now verdict = { c with phase := .waiting } ∨
      ∃ code, (verdict = .ended code ∨ verdict = .unread ∧ code = .unverified) ∧
        c.decide cfg now verdict = c.ends code := by
  cases verdict with
  | stands => exact .inl ⟨rfl, rfl⟩
  | ended code => exact .inr (.inr ⟨code, .inl rfl, rfl⟩)
  | unread =>
    by_cases hstale : c.released = false ∧ cfg.staleTTL < now - c.verified
    · exact .inr (.inr ⟨.unverified, .inr ⟨rfl, rfl⟩, if_pos hstale⟩)
    · refine .inr (.inl ⟨rfl, ?_, if_neg hstale⟩)
      cases hreleased : c.released
      · simp_all
      · simp

/-- What the cache holds after a lookup. -/
theorem store_eq_some {k : String} {e : TokenVersionEntry} (h : p.store cfg versions now reply k = some e) :
    versions k = some e ∨ k = p.key ∧ reply = .ok e.version ∧ now = e.fetched := by
  rcases reply with (_ | _) | current
  · simp only [TokenPayload.store, Function.update_apply] at h
    split_ifs at h
    exact .inl h
  · exact .inl h
  · simp only [TokenPayload.store, remember, Function.update_apply] at h
    split_ifs at h with hk
    · obtain rfl := Option.some.inj h
      exact .inr ⟨hk, rfl, rfl⟩
    · exact .inl (Option.filter_eq_some_iff.mp h).1

end Acts

section Steps
variable {cfg : Config} {s : Server} {c c' : Conn} {b : Act} {a : Step} {i : ℕ} {u : UserID} {v : ℤ}
  {P Q : TokenVersionEntry → Prop} {versions : Versions} {k : String} {e : TokenVersionEntry}

theorem Next.payload (h : Next cfg s c b c' versions) : c'.payload = c.payload := by
  cases h with
  | decide now verdict _ =>
    rcases decide_cases cfg s.now c verdict with ⟨-, h⟩ | ⟨-, -, h⟩ | ⟨code, -, h⟩ <;> rw [h]
    rfl
  | _ => rfl

/-- A connection goes by what it went by, by the cache, or by the version that its user has. -/
theorem Next.entries (h : Next cfg s c b c' versions) (he : e ∈ c'.phase.entries) :
    e ∈ c.phase.entries ∨ s.versions c.payload.key = some e ∨
      s.users c.payload.userID = some e.version ∧ c.phase.clock = some e.fetched := by
  cases h with
  | same | release => exact .inl he
  | look _ =>
    rcases look_cases cfg c.payload s.now with ⟨-, -, h⟩ | ⟨-, h⟩ | ⟨-, h⟩ <;> simp [h, Phase.entries] at he
  | readCache now _ =>
    rcases readCache_cases cfg c.payload s.versions now with ⟨e', -, -, -, h⟩ | h
    · simp [h, Phase.entries] at he
    · exact .inr (.inl (by simpa [h, Phase.entries] using he))
  | serveKey fate now cached hphase _ =>
    left
    rcases serveKey_cases c.payload s now cached fate with h | ⟨-, h⟩ | ⟨-, h⟩ <;>
      simpa [h, hphase, Phase.entries] using he
  | serve fate now cached keyRead hphase =>
    rcases serve_cases c.payload s now cached fate with ⟨v, huser, h⟩ | ⟨-, h⟩ | ⟨-, h⟩
    · simp only [h, Phase.entries, List.mem_cons] at he
      rcases he with rfl | he
      · exact .inr (.inr ⟨huser, by rw [hphase]; rfl⟩)
      · exact .inl (by simpa [hphase, Phase.entries] using he)
    all_goals exact .inl (by simpa [h, hphase, Phase.entries] using he)
  | finish now cached reply _ => simp [Phase.entries] at he
  | decide now verdict _ =>
    rcases decide_cases cfg s.now c verdict with ⟨-, h⟩ | ⟨-, -, h⟩ | ⟨code, -, h⟩ <;>
      simp [h, Conn.ends, Phase.entries] at he

theorem Next.stored (h : Next cfg s c b c' versions) (hk : versions k = some e) :
    s.versions k = some e ∨ k = c.payload.key ∧ e ∈ c.phase.entries := by
  cases h with
  | finish now cached reply hphase =>
    rcases store_eq_some hk with hk | ⟨hkey, rfl, rfl⟩
    · exact .inl hk
    · exact .inr ⟨hkey, by simp [hphase, Phase.entries]⟩
  | _ => exact .inl hk

theorem Next.stamped (h : Next cfg s c b c' versions) (hverified : c.verified ≤ s.now)
    (hclock : ∀ n, c.phase.clock = some n → n ≤ s.now) :
    c'.verified ≤ s.now ∧ ∀ n, c'.phase.clock = some n → n ≤ s.now := by
  cases h with
  | same | release => exact ⟨hverified, hclock⟩
  | look _ =>
    refine ⟨hverified, fun n hn => ?_⟩
    rcases look_cases cfg c.payload s.now with ⟨-, -, h⟩ | ⟨-, h⟩ | ⟨-, h⟩ <;> simp_all [Phase.clock]
  | readCache now hphase =>
    refine ⟨hverified, fun n hn => hclock n ?_⟩
    rcases readCache_cases cfg c.payload s.versions now with ⟨e', -, -, -, h⟩ | h <;>
      simpa [h, hphase, Phase.clock] using hn
  | serveKey fate now cached hphase _ =>
    refine ⟨hverified, fun n hn => hclock n ?_⟩
    rcases serveKey_cases c.payload s now cached fate with h | ⟨-, h⟩ | ⟨-, h⟩ <;>
      simpa [h, hphase, Phase.clock] using hn
  | serve fate now cached keyRead hphase =>
    refine ⟨hverified, fun n hn => hclock n ?_⟩
    rcases serve_cases c.payload s now cached fate with ⟨v, -, h⟩ | ⟨-, h⟩ | ⟨-, h⟩ <;>
      simpa [h, hphase, Phase.clock] using hn
  | finish now cached reply hphase => exact ⟨hverified, fun n hn => hclock n (by simpa [hphase, Phase.clock] using hn)⟩
  | decide now verdict _ =>
    rcases decide_cases cfg s.now c verdict with ⟨-, h⟩ | ⟨-, -, h⟩ | ⟨code, -, h⟩ <;>
      simp [h, Conn.ends, Phase.clock, hverified]

/-- What a step makes of a connection. -/
theorem step_conn (h : (step cfg s a).conns[i]? = some c') :
    (∃ c, s.conns[i]? = some c ∧
      (c' = c ∨ ∃ b, a = .act i b ∧ Next cfg s c b c' (step cfg s a).versions)) ∨
      ∃ p, a = .hold p ∧ i = s.conns.length ∧ c' = ⟨p, s.now, false, none, .waiting⟩ := by
  cases a with
  | hold p =>
    simp only [step, List.getElem?_append] at h
    split_ifs at h with hi
    · exact .inl ⟨c', h, .inl rfl⟩
    · rw [List.getElem?_singleton] at h
      split_ifs at h with hlast
      exact .inr ⟨p, rfl, by omega, (Option.some.inj h).symm⟩
  | act j b =>
    cases hj : s.conns[j]? with
    | none =>
      simp only [step, hj] at h
      exact .inl ⟨c', h, .inl rfl⟩
    | some d =>
      have hversions : (step cfg s (.act j b)).versions = d.stored cfg s.versions b := by simp only [step, hj]
      simp only [step, hj] at h
      rcases eq_or_of_getElem?_set h with ⟨rfl, rfl⟩ | ⟨-, h⟩
      · exact .inl ⟨d, hj, .inr ⟨b, rfl, hversions ▸ act_next cfg s d b⟩⟩
      · exact .inl ⟨c', h, .inl rfl⟩
  | _ => exact .inl ⟨c', h, .inl rfl⟩

theorem step_versions (h : (step cfg s a).versions k = some e) :
    s.versions k = some e ∨ ∃ (i : ℕ) (c : Conn), s.conns[i]? = some c ∧ k = c.payload.key ∧ e ∈ c.phase.entries := by
  cases a with
  | act j b =>
    cases hj : s.conns[j]? with
    | none =>
      simp only [step, hj] at h
      exact .inl h
    | some d =>
      simp only [step, hj] at h
      exact ((act_next cfg s d b).stored h).imp_right fun hd => ⟨j, d, hj, hd⟩
  | _ => exact .inl h

theorem step_now (cfg : Config) (s : Server) (a : Step) : s.now ≤ (step cfg s a).now := by
  cases a with
  | tick d => simp [step]
  | act j b =>
    simp only [step]
    split <;> exact le_rfl
  | _ => exact le_rfl

/-- Versions only grow. -/
theorem step_users (h : (step cfg s a).users u = some v) : ∃ w ≤ v, s.users u = some w := by
  cases a with
  | bumpTokenVersion u' =>
    simp only [step, Function.update_apply] at h
    split_ifs at h with hu
    · obtain ⟨w, hw, rfl⟩ := Option.map_eq_some_iff.mp h
      exact ⟨w, by omega, hu ▸ hw⟩
    · exact ⟨v, le_rfl, h⟩
  | removeUser u' =>
    simp only [step, Function.update_apply] at h
    split_ifs at h
    exact ⟨v, le_rfl, h⟩
  | act j b =>
    simp only [step] at h
    split at h <;> exact ⟨v, le_rfl, h⟩
  | _ => exact ⟨v, le_rfl, h⟩

theorem step_length (cfg : Config) (s : Server) (a : Step) : s.conns.length ≤ (step cfg s a).conns.length := by
  cases a with
  | hold p => simp [step]
  | act j b =>
    simp only [step]
    split <;> simp
  | _ => exact le_rfl

/-- The entries of a user, in the cache and on their way there, have a property. -/
structure Entries (u : UserID) (P : TokenVersionEntry → Prop) (s : Server) : Prop where
  cache : ∀ akid e, s.versions (cacheKey u akid) = some e → P e
  conns : ∀ (i : ℕ) (c : Conn), s.conns[i]? = some c → c.payload.userID = u → ∀ e ∈ c.phase.entries, P e

theorem Entries.mono (h : Entries u P s) (hPQ : ∀ e, P e → Q e) : Entries u Q s :=
  ⟨fun akid e he => hPQ e (h.cache akid e he), fun i c hc hu e he => hPQ e (h.conns i c hc hu e he)⟩

/-- It is enough that it holds of what a lookup comes back with. -/
theorem Entries.step (h : Entries u P s) (cfg : Config) (a : Step)
    (hnew : ∀ (i : ℕ) (c : Conn) (e : TokenVersionEntry), s.conns[i]? = some c → c.phase.clock = some e.fetched →
      s.users u = some e.version → P e) :
    Entries u P (step cfg s a) := by
  constructor
  · intro akid e he
    rcases step_versions he with he | ⟨i, c, hc, hkey, he⟩
    · exact h.cache akid e he
    · exact h.conns i c hc (userID_of_cacheKey_eq hkey).symm e he
  · intro i c' hc' hu e he
    rcases step_conn hc' with ⟨c, hc, rfl | ⟨b, -, hnext⟩⟩ | ⟨p, -, -, rfl⟩
    · exact h.conns i _ hc hu e he
    · rw [hnext.payload] at hu
      rcases hnext.entries he with he | he | ⟨huser, hclock⟩
      · exact h.conns i c hc hu e he
      · subst hu
        exact h.cache _ e he
      · exact hnew i c e hc hclock (hu ▸ huser)
    · simp [Phase.entries] at he

/-- Every stamp is a clock reading of the past. -/
structure Stamped (s : Server) : Prop where
  entries : ∀ u, Entries u (fun e => e.fetched ≤ s.now) s
  conns : ∀ (i : ℕ) (c : Conn), s.conns[i]? = some c → c.verified ≤ s.now ∧ ∀ n, c.phase.clock = some n → n ≤ s.now

theorem Stamped.step (h : Stamped s) (cfg : Config) (a : Step) : Stamped (step cfg s a) := by
  have hlater := step_now cfg s a
  constructor
  · intro u
    have hentries : Entries u (fun e => e.fetched ≤ s.now) (LiveSessions.step cfg s a) :=
      (h.entries u).step cfg a fun i c e hc hclock _ => (h.conns i c hc).2 _ hclock
    exact hentries.mono fun e he => he.trans hlater
  · intro i c' hc'
    have hpast : c'.verified ≤ s.now ∧ ∀ n, c'.phase.clock = some n → n ≤ s.now := by
      rcases step_conn hc' with ⟨c, hc, rfl | ⟨b, -, hnext⟩⟩ | ⟨p, -, -, rfl⟩
      · exact h.conns i _ hc
      · exact hnext.stamped (h.conns i c hc).1 (h.conns i c hc).2
      · exact ⟨le_rfl, by simp [Phase.clock]⟩
    exact ⟨hpast.1.trans hlater, fun n hn => (hpast.2 n hn).trans hlater⟩

/-- No entry is ahead of the version that its user has. -/
def Past (s : Server) : Prop := ∀ u v, s.users u = some v → Entries u (fun e => e.version ≤ v) s

theorem Past.step (h : Past s) (cfg : Config) (a : Step) : Past (step cfg s a) := by
  intro u v hv
  obtain ⟨w, hw, huser⟩ := step_users hv
  have hentries : Entries u (fun e => e.version ≤ w) (LiveSessions.step cfg s a) :=
    (h u w huser).step cfg a fun i c e _ _ hnew => (Option.some.inj (hnew.symm.trans huser)).le
  exact hentries.mono fun e he => he.trans hw

theorem run_sound (cfg : Config) (now : ℤ) (users : UserID → Option ℤ) (keys : UserID → String → Option ℤ)
    (as : List Step) : Stamped (exec (step cfg) (.start now users keys) as) ∧
      Past (exec (step cfg) (.start now users keys) as) := by
  have hnone (u : UserID) (P : TokenVersionEntry → Prop) : Entries u P (.start now users keys) :=
    ⟨fun akid e he => (by cases he), fun i c hc => by simp [Server.start] at hc⟩
  have hstart : Stamped (.start now users keys) := ⟨fun u => hnone u _, fun i c hc => by simp [Server.start] at hc⟩
  exact exec_invariant (I := fun s => Stamped s ∧ Past s) (G := fun _ _ => True)
    (fun s a h _ => ⟨h.1.step cfg a, h.2.step cfg a⟩) ⟨hstart, fun u v _ => hnone u _⟩ (.of_forall fun _ _ => trivial)

end Steps

/-- Every lookup of the connection is answered. -/
def Step.Answers (i : ℕ) : Step → Prop
  | .act j (.serveKey .failed) | .act j (.serve .failed) => j ≠ i
  | _ => True

theorem along_imp {cfg : Config} {s : Server} {as : List Step} {i : ℕ} {calm : Prop}
    (h : calm → Along (step cfg) (fun _ a => a.Answers i) s as) :
    Along (step cfg) (fun _ a => calm → a.Answers i) s as := by
  by_cases hcalm : calm
  · exact (h hcalm).mono fun _ _ ha _ => ha
  · exact .of_forall fun _ _ hyes => absurd hyes hcalm

section Revoked
variable {cfg : Config} {s : Server} {c c' : Conn} {b : Act} {a : Step} {i : ℕ} {p : TokenPayload} {T lag : ℤ}
  {calm : Prop} {versions : Versions}

/-- What holds of a connection from a moment `T` on at which its claimed version is behind: a check that lets it
stand began before the cache's time was over, and where its lookups are answered, none is unread. -/
structure Conn.Late (cfg : Config) (T lag : ℤ) (calm : Prop) (c : Conn) : Prop where
  verified : c.verified ≤ T + cfg.cacheTTL + lag
  stands : ∀ n, c.phase = .checked n .stands → n < T + cfg.cacheTTL
  unread : calm → ∀ n, c.phase = .checked n .unread → n ≤ T
  failed : calm → ∀ n cached, c.phase = .answered n cached (.error .failed) → n ≤ T

structure Behind (cfg : Config) (p : TokenPayload) (T lag : ℤ) (i : ℕ) (calm : Prop) (s : Server) : Prop where
  users : ∀ v, s.users p.userID = some v → p.tokenVersion < v
  entries : Entries p.userID (fun e => e.Ahead T p.tokenVersion) s
  held : i < s.conns.length
  conn : ∀ c : Conn, s.conns[i]? = some c → c.payload = p ∧ c.Late cfg T lag calm

/-- The watch decides within `lag` of the clock that its check read. -/
def Prompt (lag : ℤ) (i : ℕ) (s : Server) : Step → Prop
  | .act j .decide => j = i → ∀ c : Conn, s.conns[i]? = some c → ∀ n verdict, c.phase = .checked n verdict →
      s.now ≤ n + lag
  | _ => True

theorem Next.late (h : Next cfg s c b c' versions) (hlate : c.Late cfg T lag calm) (hsystem : c.payload.system = "")
    (hentries : Entries c.payload.userID (fun e => e.Ahead T c.payload.tokenVersion) s) (hc : s.conns[i]? = some c)
    (hprompt : Prompt lag i s (.act i b)) (hanswers : calm → Step.Answers i (.act i b)) : c'.Late cfg T lag calm := by
  cases h with
  | same => exact hlate
  | release => exact ⟨hlate.verified, hlate.stands, hlate.unread, hlate.failed⟩
  | look _ =>
    refine ⟨hlate.verified, ?_, ?_, ?_⟩ <;>
      rcases look_cases cfg c.payload s.now with ⟨-, -, h⟩ | ⟨-, h⟩ | ⟨hne, h⟩ <;> simp_all
  | readCache now _ =>
    rcases readCache_cases cfg c.payload s.versions now with ⟨e, he, hfresh, -, h⟩ | h
    · rcases versionVerdict_cases c.payload.tokenVersion e.version with ⟨hsame, hv⟩ | ⟨-, hv⟩
      · have hold : e.fetched ≤ T := by
          by_contra hnew
          have hahead := hentries.cache _ e he (by omega)
          omega
        refine ⟨hlate.verified, fun n hn => ?_, ?_, ?_⟩
        · obtain rfl : now = n := by simpa [h, hv] using hn
          omega
        all_goals simp [h, hv]
      · exact ⟨hlate.verified, by simp [h, hv], by simp [h, hv], by simp [h, hv]⟩
    · exact ⟨hlate.verified, by simp [h], by simp [h], by simp [h]⟩
  | serveKey fate now cached _ _ =>
    rcases serveKey_cases c.payload s now cached fate with h | ⟨rfl, h⟩ | ⟨-, h⟩
    · exact ⟨hlate.verified, by simp [h], by simp [h], by simp [h]⟩
    · exact ⟨hlate.verified, by simp [h], by simp [h], fun hcalm => absurd rfl (hanswers hcalm)⟩
    · exact ⟨hlate.verified, by simp [h], by simp [h], by simp [h]⟩
  | serve fate now cached keyRead _ =>
    rcases serve_cases c.payload s now cached fate with ⟨v, -, h⟩ | ⟨rfl, h⟩ | ⟨-, h⟩
    · exact ⟨hlate.verified, by simp [h], by simp [h], by simp [h]⟩
    · exact ⟨hlate.verified, by simp [h], by simp [h], fun hcalm => absurd rfl (hanswers hcalm)⟩
    · exact ⟨hlate.verified, by simp [h], by simp [h], by simp [h]⟩
  | finish now cached reply hphase =>
    refine ⟨hlate.verified, fun n hn => ?_, fun hcalm n hn => ?_, by simp⟩
    · obtain ⟨rfl, hstands⟩ : now = n ∧ c.payload.verdict cached reply = .stands := by simpa using hn
      have hahead := hentries.conns i c hc rfl ⟨c.payload.tokenVersion, now⟩
        (by simp [hphase, Phase.entries, verdict_stands.mp hstands])
      have hold : now ≤ T := by
        by_contra hnew
        exact lt_irrefl _ (hahead (by simpa using hnew))
      linarith [cfg.cacheTTL_pos]
    · obtain ⟨rfl, hunread⟩ : now = n ∧ c.payload.verdict cached reply = .unread := by simpa using hn
      exact hlate.failed hcalm now cached (by rw [hphase, verdict_unread hunread])
  | decide now verdict hphase =>
    have hnow : s.now ≤ now + lag := hprompt rfl c hc now verdict hphase
    rcases decide_cases cfg s.now c verdict with ⟨rfl, h⟩ | ⟨-, -, h⟩ | ⟨code, -, h⟩ <;> rw [h]
    · have hcheck := hlate.stands now hphase
      exact ⟨by dsimp only; omega, by simp, by simp, by simp⟩
    · exact ⟨hlate.verified, by simp, by simp, by simp⟩
    · exact ⟨hlate.verified, by simp [Conn.ends], by simp [Conn.ends], by simp [Conn.ends]⟩

theorem Behind.step (h : Behind cfg p T lag i calm s) (hsystem : p.system = "") (a : Step) (hprompt : Prompt lag i s a)
    (hanswers : calm → a.Answers i) : Behind cfg p T lag i calm (step cfg s a) := by
  refine ⟨fun v hv => ?_, ?_, h.held.trans_le (step_length cfg s a), fun c' hc' => ?_⟩
  · obtain ⟨w, hw, huser⟩ := step_users hv
    exact (h.users w huser).trans_le hw
  · exact h.entries.step cfg a fun _ _ e _ _ huser _ => h.users _ huser
  · rcases step_conn hc' with ⟨c, hc, rfl | ⟨b, rfl, hnext⟩⟩ | ⟨_, -, hi, -⟩
    · exact h.conn _ hc
    · obtain ⟨rfl, hlate⟩ := h.conn c hc
      exact ⟨hnext.payload, hnext.late hlate hsystem h.entries hc hprompt hanswers⟩
    · exact absurd hi h.held.ne

theorem Stamped.behind (h : Stamped s) (hlag : 0 ≤ lag) (hc : s.conns[i]? = some c)
    (husers : ∀ v, s.users c.payload.userID = some v → c.payload.tokenVersion < v) :
    Behind cfg c.payload s.now lag i calm s := by
  refine ⟨husers, (h.entries _).mono fun e he hnew => absurd he hnew.not_ge, (List.getElem?_eq_some_iff.mp hc).1, ?_⟩
  intro d hd
  obtain rfl := Option.some.inj (hc.symm.trans hd)
  obtain ⟨hverified, hclock⟩ := h.conns i c hc
  have hpos := cfg.cacheTTL_pos
  refine ⟨rfl, by omega, fun n hn => ?_, fun _ n hn => ?_, fun _ n cached hn => ?_⟩
  all_goals
    have hpast := hclock n (by rw [hn]; rfl)
    omega

/-- What a decision makes of a connection that is behind, once its time is over. -/
theorem Behind.ends (h : Behind cfg p T lag i calm s) (hc : s.conns[i]? = some c) (hreleased : c.released = false)
    {n : ℤ} {verdict : Verdict} (hphase : c.phase = .checked n verdict) (hnow : s.now ≤ n + lag)
    (hover : T + cfg.cacheTTL + lag + cfg.staleTTL < s.now ∨ calm ∧ T + cfg.cacheTTL + lag < s.now) :
    ∃ code, c.decide cfg s.now verdict = { c with cause := some code, phase := .stopped } := by
  have hpos := cfg.cacheTTL_pos
  have hstale := cfg.staleTTL_pos
  obtain ⟨-, hlate⟩ := h.conn c hc
  rcases decide_cases cfg s.now c verdict with ⟨rfl, -⟩ | ⟨rfl, hkept, -⟩ | ⟨code, -, hends⟩
  · have hcheck := hlate.stands n hphase
    rcases hover with hover | ⟨-, hover⟩ <;> omega
  · rcases hover with hover | ⟨hcalm, hover⟩
    · have hverified := hlate.verified
      rcases hkept with hkept | hkept
      · simp [hreleased] at hkept
      · omega
    · have hcheck := hlate.unread hcalm n hphase
      omega
  · refine ⟨code, hends.trans ?_⟩
    simp [Conn.ends, hreleased]

/-- A connection whose user is gone, or has another version than the one it claims, at the end of `as`: where its
watch decides within `lag` of its checks, a decision that is later by the cache's time, the lag and the stale time
ends it; and where its lookups are answered, so does one that is later by the cache's time and the lag. -/
theorem revoked_session_ends (cfg : Config) (now : ℤ) (users : UserID → Option ℤ) (keys : UserID → String → Option ℤ)
    (as bs : List Step) (i : ℕ) {lag : ℤ} (hlag : 0 ≤ lag) {s t : Server}
    (hs : exec (step cfg) (.start now users keys) as = s) (ht : exec (step cfg) s bs = t) {c d : Conn}
    (hc : s.conns[i]? = some c) (hsystem : c.payload.system = "")
    (husers : ∀ v, s.users c.payload.userID = some v → c.payload.tokenVersion < v)
    (hprompt : Along (step cfg) (Prompt lag i) s (bs ++ [.act i .decide]))
    (hd : t.conns[i]? = some d) (hreleased : d.released = false)
    (hdue : ∃ n verdict, d.phase = .checked n verdict)
    (hover : s.now + cfg.cacheTTL + lag + cfg.staleTTL < t.now ∨
      Along (step cfg) (fun _ a => a.Answers i) s bs ∧ s.now + cfg.cacheTTL + lag < t.now) :
    ∃ code, (step cfg t (.act i .decide)).conns[i]? = some { d with cause := some code, phase := .stopped } := by
  subst hs ht
  obtain ⟨hstamped, -⟩ := run_sound cfg now users keys as
  generalize exec (step cfg) (.start now users keys) as = s at *
  obtain ⟨hbefore, hlast⟩ := along_append.mp hprompt
  obtain ⟨n, verdict, hphase⟩ := hdue
  have hnow : (exec (step cfg) s bs).now ≤ n + lag := hlast.1 rfl d hd n verdict hphase
  have hrun (calm : Prop) (hcalm : calm → Along (step cfg) (fun _ a => a.Answers i) s bs) :
      Behind cfg c.payload s.now lag i calm (exec (step cfg) s bs) := by
    have hboth : Along (step cfg) (fun s a => Prompt lag i s a ∧ (calm → a.Answers i)) s bs :=
      hbefore.and (along_imp hcalm)
    exact exec_invariant (fun s a h hg => h.step hsystem a hg.1 hg.2) (hstamped.behind hlag hc husers) hboth
  have hends : ∃ code, d.decide cfg (exec (step cfg) s bs).now verdict =
      { d with cause := some code, phase := .stopped } := by
    rcases hover with hover | ⟨hanswers, hover⟩
    · exact (hrun False False.elim).ends hd hreleased hphase hnow (.inl hover)
    · exact (hrun True fun _ => hanswers).ends hd hreleased hphase hnow (.inr ⟨trivial, hover⟩)
  obtain ⟨code, hends⟩ := hends
  refine ⟨code, ?_⟩
  have hi : i < (exec (step cfg) s bs).conns.length := (List.getElem?_eq_some_iff.mp hd).1
  simp only [step, hd, Conn.act, hphase, hends]
  rw [List.getElem?_set_self hi]

def alicePayload : TokenPayload := ⟨"", alice, "", 0, 0, 0⟩

/-- A connection is opened and checked, and then its user's version goes up. -/
def heldThenBumped : List Step := [.hold alicePayload, .act 0 .look, .act 0 .readCache, .act 0 (.serve .answered),
  .act 0 .finish, .act 0 .decide, .bumpTokenVersion alicePayload.userID]

/-- The next check, past the cache's time. -/
def nextCheck : List Step := [.tick 30000000001, .act 0 .look, .act 0 .readCache, .act 0 (.serve .answered),
  .act 0 .finish]

theorem revoked_session_ends_alice : ∃ code, (exec (step (newLiveSessions 0 0 0))
    (.start 0 (fun _ => some 0) fun _ _ => none) (heldThenBumped ++ nextCheck ++ [.act 0 .decide])).conns[0]? =
      some ⟨alicePayload, 0, false, some code, .stopped⟩ := by
  rw [exec_append, exec_append]
  refine revoked_session_ends (newLiveSessions 0 0 0) 0 (fun _ => some 0) (fun _ _ => none) heldThenBumped nextCheck 0
    (le_refl 0) rfl rfl (c := ⟨alicePayload, 0, false, none, .waiting⟩) rfl rfl ?_ ?_ rfl rfl ⟨_, _, rfl⟩
    (.inr ⟨?_, ?_⟩)
  · intro v hv
    obtain rfl : 1 = v := Option.some.inj hv
    decide
  · refine ⟨trivial, trivial, trivial, trivial, trivial, ?_, trivial⟩
    rintro - c hc n verdict hphase
    obtain rfl := Option.some.inj hc
    obtain ⟨rfl, -⟩ := Phase.checked.inj hphase
    decide
  · exact ⟨trivial, trivial, trivial, trivial, trivial, trivial⟩
  · decide

end Revoked

section Standing
variable {cfg : Config} {s : Server} {c c' : Conn} {b : Act} {a : Step} {i : ℕ} {p : TokenPayload} {calm : Prop}
  {versions : Versions}

/-- The session stands: its lifetime is not over, and its user's version and its API key are there. -/
structure Server.Stands (cfg : Config) (p : TokenPayload) (s : Server) : Prop where
  lifetime : ¬ p.outlived cfg s.now
  user : s.users p.userID = some p.tokenVersion
  key : p.apiKeyID ≠ "" → ∃ expires, s.keys p.userID p.apiKeyID = some expires ∧ s.now < expires

/-- What holds of a connection while its session stands: only lookups that fail come between. -/
structure Conn.Held (calm : Prop) (c : Conn) : Prop where
  cause : c.cause = none ∨ ¬calm ∧ c.cause = some .unverified
  reply : ∀ n cached r, c.phase = .answered n cached r → r = .ok c.payload.tokenVersion ∨ ¬calm ∧ r = .error .failed
  verdict : ∀ n v, c.phase = .checked n v → v = .stands ∨ ¬calm ∧ v = .unread

theorem Next.held (h : Next cfg s c b c' versions) (hheld : c.Held calm) (hsystem : c.payload.system = "")
    (hstands : s.Stands cfg c.payload) (hpast : Past s) (hc : s.conns[i]? = some c)
    (hanswers : calm → Step.Answers i (.act i b)) : c'.Held calm := by
  have hentries := hpast _ _ hstands.user
  have hfails {fate : Fate} (hb : b = .serveKey fate ∨ b = .serve fate) (hfate : fate = .failed) : ¬calm := by
    intro hcalm
    subst hfate
    rcases hb with rfl | rfl <;> exact hanswers hcalm rfl
  cases h with
  | same => exact hheld
  | release => exact ⟨hheld.cause, hheld.reply, hheld.verdict⟩
  | look _ =>
    rcases look_cases cfg c.payload s.now with ⟨-, -, h⟩ | ⟨hover, -⟩ | ⟨hne, -⟩
    · exact ⟨hheld.cause, by simp [h], by simp [h]⟩
    · exact (hover.elim (absurd hsystem) hstands.lifetime).elim
    · exact absurd hsystem hne
  | readCache now _ =>
    rcases readCache_cases cfg c.payload s.versions now with ⟨e, he, -, hahead, h⟩ | h
    · have hsame : c.payload.tokenVersion = e.version := le_antisymm hahead (hentries.cache _ e he)
      refine ⟨hheld.cause, by simp [h], fun n v hv => .inl ?_⟩
      rw [h, versionVerdict, if_neg (not_not.mpr hsame)] at hv
      exact (Phase.checked.inj hv).2.symm
    · exact ⟨hheld.cause, by simp [h], by simp [h]⟩
  | serveKey fate now cached _ hkey =>
    rcases serveKey_cases c.payload s now cached fate with h | ⟨hfate, h⟩ | ⟨hgone, -⟩
    · exact ⟨hheld.cause, by simp [h], by simp [h]⟩
    · refine ⟨hheld.cause, fun n cached' r hr => .inr ⟨hfails (.inl rfl) hfate, ?_⟩, by simp [h]⟩
      rw [h] at hr
      exact (Phase.answered.inj hr).2.2.symm
    · obtain ⟨expires, hexpires, hlive⟩ := hstands.key hkey
      exact absurd (hgone expires hexpires) hlive.not_ge
  | serve fate now cached keyRead _ =>
    rcases serve_cases c.payload s now cached fate with ⟨v, huser, h⟩ | ⟨hfate, h⟩ | ⟨hgone, -⟩
    · obtain rfl := Option.some.inj (hstands.user.symm.trans huser)
      refine ⟨hheld.cause, fun n cached' r hr => .inl ?_, by simp [h]⟩
      rw [h] at hr
      exact (Phase.answered.inj hr).2.2.symm
    · refine ⟨hheld.cause, fun n cached' r hr => .inr ⟨hfails (.inr rfl) hfate, ?_⟩, by simp [h]⟩
      rw [h] at hr
      exact (Phase.answered.inj hr).2.2.symm
    · simp [hstands.user] at hgone
  | finish now cached reply hphase =>
    refine ⟨hheld.cause, by simp, fun n v hv => ?_⟩
    obtain ⟨-, rfl⟩ := Phase.checked.inj hv
    rcases hheld.reply now cached reply hphase with rfl | ⟨hcalm, rfl⟩
    · exact .inl (verdict_stands.mpr rfl)
    · -- A cached version is not ahead of the claimed one.
      right
      refine ⟨hcalm, ?_⟩
      cases cached with
      | none => rfl
      | some e =>
        have hle := hentries.conns i c hc rfl e (by simp [hphase, Phase.entries])
        exact if_neg hle.not_gt
  | decide now verdict hphase =>
    rcases decide_cases cfg s.now c verdict with ⟨-, h⟩ | ⟨-, -, h⟩ | ⟨code, hcode, h⟩ <;> rw [h]
    · exact ⟨hheld.cause, by simp, by simp⟩
    · exact ⟨hheld.cause, by simp, by simp⟩
    · refine ⟨?_, by simp [Conn.ends], by simp [Conn.ends]⟩
      rcases hheld.verdict now verdict hphase with rfl | ⟨hcalm, rfl⟩
      · simp at hcode
      · obtain rfl : code = .unverified := by simpa using hcode
        simp only [Conn.ends]
        split_ifs
        · exact hheld.cause
        · exact .inr ⟨hcalm, rfl⟩

/-- A connection of a user's session is not ended while the session stands, other than for lookups that fail. -/
theorem standing_session_kept (cfg : Config) (now : ℤ) (users : UserID → Option ℤ)
    (keys : UserID → String → Option ℤ) (as bs : List Step) {p : TokenPayload} (hsystem : p.system = "") {s : Server}
    (hs : exec (step cfg) (.start now users keys) as = s)
    (hstands : Along (step cfg) (fun t _ => t.Stands cfg p) (step cfg s (.hold p)) bs) :
    ∃ c, (exec (step cfg) s (.hold p :: bs)).conns[s.conns.length]? = some c ∧ c.payload = p ∧
      (c.cause = none ∨ c.cause = some .unverified) ∧
      (Along (step cfg) (fun _ a => a.Answers s.conns.length) (step cfg s (.hold p)) bs → c.cause = none) := by
  obtain ⟨-, hbefore⟩ := run_sound cfg now users keys as
  rw [hs] at hbefore
  have hpast : Past (step cfg s (.hold p)) := hbefore.step cfg _
  have hlast : (step cfg s (.hold p)).conns[s.conns.length]? = some ⟨p, s.now, false, none, .waiting⟩ := by
    simp [step]
  rw [exec_cons]
  generalize s.conns.length = i at *
  generalize step cfg s (.hold p) = s at *
  have hrun (calm : Prop) (hcalm : calm → Along (step cfg) (fun _ a => a.Answers i) s bs) :
      ∃ c : Conn, (exec (step cfg) s bs).conns[i]? = some c ∧ c.payload = p ∧ c.Held calm := by
    have hboth := hstands.and (along_imp hcalm)
    have hkept : Past (exec (step cfg) s bs) ∧
        ∃ c : Conn, (exec (step cfg) s bs).conns[i]? = some c ∧ c.payload = p ∧ c.Held calm := by
      refine exec_invariant (I := fun s => Past s ∧ ∃ c : Conn, s.conns[i]? = some c ∧ c.payload = p ∧ c.Held calm)
        ?_ ⟨hpast, _, hlast, rfl, ⟨.inl rfl, by simp, by simp⟩⟩ hboth
      rintro t a ⟨hpast, c, hc, rfl, hheld⟩ ⟨hstands, hanswers⟩
      refine ⟨hpast.step cfg a, ?_⟩
      have hi := (List.getElem?_eq_some_iff.mp hc).1
      obtain ⟨c', hc'⟩ : ∃ c', (step cfg t a).conns[i]? = some c' :=
        ⟨_, List.getElem?_eq_getElem (hi.trans_le (step_length cfg t a))⟩
      refine ⟨c', hc', ?_⟩
      rcases step_conn hc' with ⟨d, hd, hmove⟩ | ⟨_, -, hnew, -⟩
      · obtain rfl := Option.some.inj (hc.symm.trans hd)
        rcases hmove with rfl | ⟨b, rfl, hnext⟩
        · exact ⟨rfl, hheld⟩
        · exact ⟨hnext.payload, hnext.held hheld hsystem hstands hpast hc hanswers⟩
      · exact absurd hnew hi.ne
    exact hkept.2
  obtain ⟨c, hc, hpayload, hheld⟩ := hrun False False.elim
  refine ⟨c, hc, hpayload, hheld.cause.imp_right And.right, fun hanswers => ?_⟩
  obtain ⟨d, hd, -, hcalm⟩ := hrun True fun _ => hanswers
  obtain rfl := Option.some.inj (hc.symm.trans hd)
  exact hcalm.cause.resolve_right fun hnot => hnot.1 trivial

/-- Two checks, the later of which cannot read the version. -/
def outage : List Step := [.look, .readCache, .serve .answered, .finish, .decide].map (.act 0) ++
  .tick 30000000001 :: [.look, .readCache, .serve .failed, .finish, .decide].map (.act 0)

theorem standing_session_kept_alice : ∃ c, (exec (step (newLiveSessions 0 0 0))
    (.start 0 (fun _ => some 0) fun _ _ => none) (.hold alicePayload :: outage)).conns[0]? = some c ∧
      c.payload = alicePayload ∧ (c.cause = none ∨ c.cause = some .unverified) := by
  have hall (bs : List Step) (hbs : ∀ a ∈ bs, ∀ t, (step (newLiveSessions 0 0 0) t a).users = t.users) (t : Server)
      (ht : t.users = fun _ => some 0) :
      Along (step (newLiveSessions 0 0 0)) (fun t _ => t.Stands (newLiveSessions 0 0 0) alicePayload) t bs := by
    induction bs generalizing t with
    | nil => trivial
    | cons a bs ih =>
      rw [List.forall_mem_cons] at hbs
      refine ⟨⟨fun hover => absurd hover.1 (by decide), by rw [ht]; rfl, fun hne => absurd rfl hne⟩, ?_⟩
      exact ih hbs.2 _ ((hbs.1 t).trans ht)
  have hkept : ∀ a ∈ outage, ∀ t, (step (newLiveSessions 0 0 0) t a).users = t.users := by
    intro a ha t
    simp only [outage, List.mem_append, List.mem_cons, List.mem_map] at ha
    rcases ha with ⟨b, -, rfl⟩ | rfl | ⟨b, -, rfl⟩
    · simp only [step]
      split <;> rfl
    · rfl
    · simp only [step]
      split <;> rfl
  obtain ⟨c, hc, hpayload, hcause, -⟩ := standing_session_kept (newLiveSessions 0 0 0) 0 (fun _ => some 0)
    (fun _ _ => none) [] outage (p := alicePayload) rfl rfl
    (hall outage hkept _ rfl)
  exact ⟨c, hc, hpayload, hcause⟩

end Standing

end Kubeast.LiveSessions
