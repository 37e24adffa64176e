import Kubeast.Multiplexer.Sockets

/-! What the page asked its socket for is what it listens to: in every run that makes no socket
beside one whose `onclose` is yet to run, and whose subscribes do not leave their REQUEST to a
listener that has gone. -/
namespace Kubeast.Multiplexer
open Transition

variable {s : State} {a : Step} {i j n : ℕ} {k : Socket} {key : String} {l : Listener} {m : ClientMessage}
  {f : Socket → Socket}

/-- No socket is made beside one whose `onclose` is yet to run, and a subscribe whose listener has
gone leaves no key to others that nobody asks for. -/
def Orderly (s : State) : Step → Prop
  | .subscribe _ _ => s.socket ≠ none → s.Connected
  | .timer => s.reconnectTimer = true → s.socket ≠ none → s.Connected
  | .ask n => ∀ (p : Ask) (k : Socket), s.asks[n]? = some p → s.sockets[p.socket]? = some k →
      k.readyState = .open → p.listener ∉ s.listeners p.key → s.listeners p.key ≠ [] →
        p.key ∈ k.asked ∨ ∃ q ∈ s.asks.eraseIdx n, q.key = p.key ∧ q.socket = p.socket
  | _ => True

structure Sound (s : State) : Prop where
  keys : ∀ key, s.subscriptions.get key ≠ none ↔ s.listeners key ≠ []
  one : ∀ (i : ℕ) (k : Socket), s.sockets[i]? = some k → k.handled = false → s.socket = some i
  closed : ∀ (i : ℕ) (k : Socket), s.sockets[i]? = some k → k.handled = true → k.readyState = .closed
  socket : ∀ i, s.socket = some i → ∃ k, s.sockets[i]? = some k ∧ k.handled = false
  connecting : s.connecting = true → s.socket ≠ none
  waiting : ∀ (i : ℕ) (k : Socket), s.sockets[i]? = some k → k.readyState = .open → k.resend ≠ .waiting
  fresh : ∀ (i : ℕ) (k : Socket), s.sockets[i]? = some k → k.readyState = .connecting → k.asked = []
  asked : ∀ (i : ℕ) (k : Socket), s.sockets[i]? = some k → k.readyState = .open →
    ∀ key ∈ k.asked, s.listeners key ≠ []
  covers : ∀ (i : ℕ) (k : Socket), s.sockets[i]? = some k → k.readyState = .open → k.resend = .done →
    ∀ key, s.listeners key ≠ [] → key ∈ k.asked ∨ ∃ p ∈ s.asks, p.key = key ∧ p.socket = i

/-- The socket is open or on its way to be. -/
def Socket.live (k : Socket) : Bool := k.readyState = .open || k.readyState = .connecting

/-- The page has one socket, and has asked it for the keys that someone listens to. -/
structure State.Asked (s : State) : Prop where
  one : ∀ (i j : ℕ) (k k' : Socket), s.sockets[i]? = some k → s.sockets[j]? = some k' →
    k.live = true → k'.live = true → i = j
  subscribed : ∀ key, s.subscriptions.get key ≠ none ↔ s.listeners key ≠ []
  asked : s.Quiet → ∀ k ∈ s.sockets, k.readyState = .open → ∀ key, key ∈ k.asked ↔ s.listeners key ≠ []
  frames : ∀ m : ClientMessage, m.clusterId ≠ "" → s.dispatch (some m.clusterId) m.path m.query = s.listeners m.key

section Steps

theorem readyState_eq (hs : s.socket = some i) (hk : s.sockets[i]? = some k) :
    s.readyState = some k.readyState := by
  rw [State.readyState, hs, Option.bind_some, hk, Option.map_some]

/-- An open socket is the one the page has. -/
theorem Sound.of_open (h : Sound s) (hk : s.sockets[i]? = some k) (ho : k.readyState = .open) :
    s.socket = some i ∧ s.readyState = some .open := by
  have hsocket : s.socket = some i := by
    refine h.one i k hk ?_
    by_contra hhandled
    rw [h.closed i k hk (by simpa using hhandled)] at ho
    cases ho
  exact ⟨hsocket, ho ▸ readyState_eq hsocket hk⟩

/-- The timer, the promise of the connection and what waits for a socket. -/
theorem Sound.rest (h : Sound s) (connecting : Bool) (hconnecting : connecting = true → s.socket ≠ none)
    (timer : Bool) (reconnects : List ℕ) (checks : ℕ) :
    Sound { s with connecting := connecting, reconnectTimer := timer, reconnects := reconnects, checks := checks } :=
  ⟨h.keys, h.one, h.closed, h.socket, hconnecting, h.waiting, h.fresh, h.asked, h.covers⟩

theorem Sound.scheduleReconnect (h : Sound s) : Sound s.scheduleReconnect := by
  unfold State.scheduleReconnect
  split
  · exact h
  · exact h.rest s.connecting h.connecting true s.reconnects s.checks

theorem getElem?_modify_socket {k' : Socket} (hk : (s.modify i f).sockets[j]? = some k') :
    (j = i ∧ ∃ k, s.sockets[i]? = some k ∧ k' = f k) ∨ (j ≠ i ∧ s.sockets[j]? = some k') := by
  rw [State.modify, List.getElem?_modify] at hk
  by_cases heq : i = j
  · subst heq
    obtain ⟨k, hk, hk'⟩ := Option.map_eq_some_iff.mp hk
    rw [if_pos rfl] at hk'
    exact Or.inl ⟨rfl, k, hk, hk'.symm⟩
  · refine Or.inr ⟨Ne.symm heq, ?_⟩
    simpa [heq] using hk

/-- One socket changes, and stays as open to `onclose` as it was. -/
theorem Sound.modify (h : Sound s) (hk : s.sockets[i]? = some k) (hhandled : (f k).handled = k.handled)
    (hclosed : k.readyState = .closed → (f k).readyState = .closed)
    (hwaiting : (f k).readyState = .open → (f k).resend ≠ .waiting)
    (hfresh : (f k).readyState = .connecting → (f k).asked = [])
    (hasked : (f k).readyState = .open → ∀ key ∈ (f k).asked, s.listeners key ≠ [])
    (hcovers : (f k).readyState = .open → (f k).resend = .done → ∀ key, s.listeners key ≠ [] →
      key ∈ (f k).asked ∨ ∃ p ∈ s.asks, p.key = key ∧ p.socket = i) : Sound (s.modify i f) := by
  have hcases {P : ℕ → Socket → Prop} (hself : P i (f k)) (hother : ∀ j k', s.sockets[j]? = some k' → P j k')
      (j : ℕ) (k' : Socket) (hk' : (s.modify i f).sockets[j]? = some k') : P j k' := by
    rcases getElem?_modify_socket hk' with ⟨rfl, x, hx, rfl⟩ | ⟨-, hx⟩
    · rw [hk] at hx
      rwa [← Option.some.inj hx]
    · exact hother j k' hx
  refine ⟨h.keys, ?_, ?_, fun j hj => ?_, h.connecting, ?_, ?_, ?_, ?_⟩
  · exact hcases (fun hf => h.one i k hk (hhandled ▸ hf)) h.one
  · exact hcases (fun hf => hclosed (h.closed i k hk (hhandled ▸ hf))) h.closed
  · obtain ⟨x, hx, hopen⟩ := h.socket j hj
    by_cases heq : i = j
    · subst heq
      rw [hk] at hx
      obtain rfl := Option.some.inj hx
      exact ⟨f k, by simp [State.modify, hk], hhandled.trans hopen⟩
    · exact ⟨x, by simp [State.modify, heq, hx], hopen⟩
  · exact hcases hwaiting h.waiting
  · exact hcases hfresh h.fresh
  · exact hcases hasked h.asked
  · exact hcases hcovers h.covers

theorem Sound.connect (h : Sound s) (hguard : s.socket ≠ none → s.Connected) : Sound s.connect := by
  unfold State.connect
  split
  · exact h
  · next hnot =>
    have hnone : s.socket = none := by
      by_contra hsome
      exact hnot (hguard hsome)
    have hcases {P : ℕ → Socket → Prop} (hnew : P s.sockets.length ⟨.connecting, .waiting, [], false, false⟩)
        (hold : ∀ j k', s.sockets[j]? = some k' → P j k') (j : ℕ) (k' : Socket)
        (hk' : (s.sockets ++ [⟨.connecting, .waiting, [], false, false⟩])[j]? = some k') : P j k' := by
      rcases Nat.lt_trichotomy j s.sockets.length with hlt | rfl | hgt
      · rw [List.getElem?_append_left hlt] at hk'
        exact hold j k' hk'
      · rw [List.getElem?_concat_length] at hk'
        rwa [← Option.some.inj hk']
      · rw [List.getElem?_eq_none (by simp; omega)] at hk'
        cases hk'
    have hshut (j : ℕ) (k' : Socket) (hk' : s.sockets[j]? = some k') (ho : k'.readyState = .open) {b : Prop} : b := by
      have hsome := (h.of_open hk' ho).1
      rw [hnone] at hsome
      cases hsome
    refine ⟨h.keys, ?_, ?_, ?_, fun _ => by simp, ?_, ?_, ?_, ?_⟩
    · refine hcases (fun _ => rfl) fun j k' hk' hopen => ?_
      have hsome := h.one j k' hk' hopen
      rw [hnone] at hsome
      cases hsome
    · exact hcases (fun h => by cases h) h.closed
    · rintro i hi
      obtain rfl := Option.some.inj hi
      exact ⟨_, List.getElem?_concat_length, rfl⟩
    · exact hcases (fun h => by cases h) h.waiting
    · exact hcases (fun _ => rfl) h.fresh
    · exact hcases (fun h => by cases h) h.asked
    · exact hcases (fun h => by cases h) fun j k' hk' ho => hshut j k' hk' ho

/-- Somebody listens to one more key, and whoever is first on an open socket asks for it. -/
theorem Sound.listen (h : Sound s) (m : ClientMessage) (l : Listener) {asks : List Ask}
    (hasks : ∀ p ∈ s.asks, p ∈ asks) (hfirst : ∀ i, s.socket = some i → s.readyState = some .open →
      s.listeners m.key = [] → ∃ p ∈ asks, p.key = m.key ∧ p.socket = i) :
    Sound { s.listen m l with asks := asks } := by
  have hlisteners (key : String) (hne : s.listeners key ≠ []) : (s.listen m l).listeners key ≠ [] := by
    dsimp only [State.listen]
    by_cases heq : key = m.key
    · subst heq
      rw [Function.update_self]
      split
      · exact hne
      · simp
    · rwa [Function.update_of_ne heq]
  have hback (key : String) (hne : (s.listen m l).listeners key ≠ []) (hkey : key ≠ m.key) : s.listeners key ≠ [] := by
    dsimp only [State.listen] at hne
    rwa [Function.update_of_ne hkey] at hne
  refine ⟨fun key => ?_, h.one, h.closed, h.socket, h.connecting, h.waiting, h.fresh, ?_, ?_⟩
  · by_cases heq : key = m.key
    · subst heq
      dsimp only [State.listen]
      rw [Table.get_upsert_self, Function.update_self]
      refine iff_of_true (by simp) ?_
      split
      · next hmem => exact List.ne_nil_of_mem hmem
      · simp
    · dsimp only [State.listen]
      rw [Table.get_upsert_ne _ (Ne.symm heq), Function.update_of_ne heq]
      exact h.keys key
  · exact fun i k hk ho key hkey => hlisteners key (h.asked i k hk ho key hkey)
  · intro i k hk ho hdone key hkey
    by_cases hold : s.listeners key = []
    · have heq : key = m.key := by
        by_contra hne
        exact hback key hkey hne hold
      obtain ⟨hsocket, hready⟩ := h.of_open hk ho
      exact Or.inr (heq ▸ hfirst i hsocket hready (heq ▸ hold))
    · refine (h.covers i k hk ho hdone key hold).imp_right ?_
      rintro ⟨p, hp, hp'⟩
      exact ⟨p, hasks p hp, hp'⟩

theorem Sound.subscribe (h : Sound s) (hguard : s.socket ≠ none → s.Connected) (m : ClientMessage) (l : Listener) :
    Sound (s.subscribe m l) := by
  unfold State.subscribe
  split
  · next i hi =>
    split
    · refine Sound.connect (h.listen m l (fun p hp => List.mem_append_left _ hp) fun j hj _ _ => ?_) hguard
      obtain rfl : i = j := Option.some.inj (hi.symm.trans hj)
      exact ⟨_, List.mem_append_right _ List.mem_cons_self, rfl, rfl⟩
    · next hnot =>
      refine Sound.connect (h.listen m l (fun p hp => hp) fun j _ ho hnone => absurd ⟨ho, ?_⟩ hnot) hguard
      by_contra hsome
      exact (h.keys m.key).mp hsome hnone
  · next hnone =>
    refine Sound.connect (h.listen m l (fun p hp => hp) fun j hj => ?_) hguard
    rw [hnone] at hj
    cases hj

/-- A key stays one that somebody listens to. -/
theorem Sound.stay (h : Sound s) {listeners : String → List Listener}
    (hlisteners : ∀ key, listeners key ≠ [] ↔ s.listeners key ≠ []) : Sound { s with listeners := listeners } := by
  refine ⟨fun key => (h.keys key).trans (hlisteners key).symm, h.one, h.closed, h.socket, h.connecting, h.waiting,
    h.fresh, ?_, ?_⟩
  · exact fun i k hk ho key hkey => (hlisteners key).mpr (h.asked i k hk ho key hkey)
  · exact fun i k hk ho hdone key hkey => h.covers i k hk ho hdone key ((hlisteners key).mp hkey)

/-- The last listener of a key leaves, and an open socket is told. -/
theorem Sound.drop (h : Sound s) (m : ClientMessage) : Sound ((s.drop m).sendClose m.key) := by
  have hkeys (key : String) : (s.drop m).subscriptions.get key ≠ none ↔ (s.drop m).listeners key ≠ [] := by
    dsimp only [State.drop]
    rw [Table.get_delete]
    by_cases heq : key = m.key
    · subst heq
      rw [Function.update_self]
      refine iff_of_false (fun hne => hne ?_) (by simp)
      cases hget : s.subscriptions.get m.key with
      | none => rfl
      | some x => simp [(Table.key_of_get hget : x.key = m.key)]
    · rw [Function.update_of_ne heq, ← h.keys key]
      cases hget : s.subscriptions.get key with
      | none => simp
      | some x => simp [Option.filter, (Table.key_of_get hget : x.key = key), heq]
  have hless (key : String) (hne : (s.drop m).listeners key ≠ []) : key ≠ m.key ∧ s.listeners key ≠ [] := by
    dsimp only [State.drop] at hne
    by_cases heq : key = m.key
    · subst heq
      rw [Function.update_self] at hne
      exact absurd rfl hne
    · rw [Function.update_of_ne heq] at hne
      exact ⟨heq, hne⟩
  have hbuild {sockets : List Socket}
      (hsock : ∀ (j : ℕ) (k' : Socket), sockets[j]? = some k' → ∃ k, s.sockets[j]? = some k ∧
        k'.handled = k.handled ∧ k'.readyState = k.readyState ∧ k'.resend = k.resend ∧
          ∀ key, key ∈ k'.asked ↔ key ∈ k.asked ∧ (k.readyState = .open → key ≠ m.key))
      (hlive : ∀ (j : ℕ) (k : Socket), s.sockets[j]? = some k → ∃ k', sockets[j]? = some k' ∧ k'.handled = k.handled) :
      Sound { s.drop m with sockets := sockets } := by
    refine ⟨hkeys, ?_, ?_, ?_, h.connecting, ?_, ?_, ?_, ?_⟩
    · intro j k' hk' hopen
      obtain ⟨k, hk, hhandled, -⟩ := hsock j k' hk'
      exact h.one j k hk (hhandled ▸ hopen)
    · intro j k' hk' hhandled'
      obtain ⟨k, hk, hhandled, hready, -⟩ := hsock j k' hk'
      rw [hready]
      exact h.closed j k hk (hhandled ▸ hhandled')
    · intro j hj
      obtain ⟨k, hk, hopen⟩ := h.socket j hj
      obtain ⟨k', hk', hhandled⟩ := hlive j k hk
      exact ⟨k', hk', hhandled.trans hopen⟩
    · intro j k' hk' ho
      obtain ⟨k, hk, -, hready, hresend, -⟩ := hsock j k' hk'
      rw [hresend]
      exact h.waiting j k hk (hready ▸ ho)
    · intro j k' hk' hconnecting
      obtain ⟨k, hk, -, hready, -, hasked⟩ := hsock j k' hk'
      refine List.eq_nil_iff_forall_not_mem.mpr fun key hkey => ?_
      have hold := ((hasked key).mp hkey).1
      rw [h.fresh j k hk (hready ▸ hconnecting)] at hold
      cases hold
    · intro j k' hk' ho key hkey
      obtain ⟨k, hk, -, hready, -, hasked⟩ := hsock j k' hk'
      obtain ⟨hkey, hne⟩ := (hasked key).mp hkey
      dsimp only [State.drop]
      rw [Function.update_of_ne (hne (hready ▸ ho))]
      exact h.asked j k hk (hready ▸ ho) key hkey
    · intro j k' hk' ho hdone key hkey
      obtain ⟨k, hk, -, hready, hresend, hasked⟩ := hsock j k' hk'
      obtain ⟨hne, hlistened⟩ := hless key hkey
      refine (h.covers j k hk (hready ▸ ho) (hresend ▸ hdone) key hlistened).imp_left fun hmem => ?_
      exact (hasked key).mpr ⟨hmem, fun _ => hne⟩
  have hsame (hshut : ∀ (j : ℕ) (k : Socket), s.sockets[j]? = some k → k.readyState ≠ .open) : Sound (s.drop m) :=
    hbuild (fun j k hk => ⟨k, hk, rfl, rfl, rfl, fun key => by simp [hshut j k hk]⟩) fun j k hk => ⟨k, hk, rfl⟩
  unfold State.sendClose
  split
  · next i hi =>
    split
    · next hready =>
      refine hbuild (fun j k' hk' => ?_) fun j k hk => ?_
      · rcases getElem?_modify_socket hk' with ⟨rfl, k, hk, rfl⟩ | ⟨hne, hk⟩
        · have ho : k.readyState = .open := Option.some.inj ((readyState_eq hi hk).symm.trans hready)
          exact ⟨k, hk, rfl, rfl, rfl, fun key => by simp [ho]⟩
        · refine ⟨k', hk, rfl, rfl, rfl, fun key => ?_⟩
          have hshut (ho : k'.readyState = .open) : False :=
            hne (Option.some.inj ((h.of_open hk ho).1.symm.trans hi))
          exact ⟨fun hkey => ⟨hkey, fun ho => (hshut ho).elim⟩, fun hkey => hkey.1⟩
      · by_cases heq : i = j
        · subst heq
          exact ⟨{ k with asked := k.asked.filter (· ≠ m.key) }, by simp [State.drop, hk], rfl⟩
        · exact ⟨k, by simp [State.drop, heq, hk], rfl⟩
    · next hnot => exact hsame fun j k hk ho => hnot (h.of_open hk ho).2
  · next hnone =>
    refine hsame fun j k hk ho => ?_
    have hsome := (h.of_open hk ho).1
    rw [show s.socket = none from hnone] at hsome
    cases hsome

theorem Sound.unsubscribe (h : Sound s) (m : ClientMessage) (l : Listener) : Sound (s.unsubscribe m l) := by
  unfold State.unsubscribe
  split
  · exact h
  · next hsome =>
    split
    · next hleft =>
      refine h.stay fun key => ?_
      by_cases heq : key = m.key
      · subst heq
        rw [Function.update_self]
        exact iff_of_true hleft hsome
      · rw [Function.update_of_ne heq]
    · exact h.drop m

/-- A REQUEST for keys that are listened to. -/
theorem Sound.request (h : Sound s) {keys : List String} (hkeys : ∀ key ∈ keys, s.listeners key ≠ []) :
    Sound (s.modify i (State.request keys)) := by
  cases hk : s.sockets[i]? with
  | none =>
    have hnone : s.sockets.modify i (State.request keys) = s.sockets :=
      List.modify_eq_self (List.getElem?_eq_none_iff.mp hk)
    rw [State.modify, hnone]
    exact h
  | some k =>
    have hready : (State.request keys k).readyState = k.readyState := by
      unfold State.request
      split <;> rfl
    have hresend : (State.request keys k).resend = k.resend := by
      unfold State.request
      split <;> rfl
    refine h.modify hk (by unfold State.request; split <;> rfl) (fun hc => hready.trans hc)
      (fun ho => hresend ▸ h.waiting i k hk (hready ▸ ho)) (fun hc => ?_) (fun ho key hkey => ?_)
      fun ho hdone key hkey => ?_
    · rw [hready] at hc
      rw [State.request, if_neg (by simp [hc])]
      exact h.fresh i k hk hc
    · rw [hready] at ho
      rw [State.request, if_pos ho, List.mem_append] at hkey
      exact hkey.elim (h.asked i k hk ho key) (hkeys key)
    · rw [hready] at ho
      refine (h.covers i k hk ho (hresend ▸ hdone) key hkey).imp_left fun hmem => ?_
      rw [State.request, if_pos ho]
      exact List.mem_append_left _ hmem

theorem Sound.ask (h : Sound s) (hguard : Orderly s (.ask n)) : Sound (s.ask n) := by
  unfold State.ask
  split
  · exact h
  · next p hp =>
    have hleft (q : Ask) (hq : q ∈ s.asks) : q = p ∨ q ∈ s.asks.eraseIdx n := by
      obtain ⟨j, hj⟩ := List.getElem?_of_mem hq
      by_cases heq : j = n
      · subst heq
        exact Or.inl (Option.some.inj (hj.symm.trans hp))
      · exact Or.inr (List.mem_eraseIdx_iff_getElem?.mpr ⟨j, heq, hj⟩)
    split
    · next hlistens =>
      have hne : s.listeners p.key ≠ [] := List.ne_nil_of_mem hlistens
      have hsent : Sound (s.modify p.socket (State.request [p.key])) := by
        refine h.request fun key hkey => ?_
        rwa [List.mem_singleton.mp hkey]
      refine ⟨hsent.keys, hsent.one, hsent.closed, hsent.socket, hsent.connecting, hsent.waiting,
        hsent.fresh, hsent.asked, ?_⟩
      intro j k hk ho hdone key hkey
      rcases hsent.covers j k hk ho hdone key hkey with hmem | ⟨q, hq, hkey', hsocket⟩
      · exact Or.inl hmem
      · rcases hleft q hq with rfl | hq
        · left
          rcases getElem?_modify_socket hk with ⟨-, x, -, rfl⟩ | ⟨hne', -⟩
          · have hx : x.readyState = .open := by
              unfold State.request at ho
              split at ho
              · next hx => exact hx
              · exact ho
            rw [State.request, if_pos hx, ← hkey']
            exact List.mem_append_right _ List.mem_cons_self
          · exact absurd hsocket.symm hne'
        · exact Or.inr ⟨q, hq, hkey', hsocket⟩
    · next hgone =>
      refine ⟨h.keys, h.one, h.closed, h.socket, h.connecting, h.waiting, h.fresh, h.asked, ?_⟩
      intro j k hk ho hdone key hkey
      rcases h.covers j k hk ho hdone key hkey with hmem | ⟨q, hq, rfl, rfl⟩
      · exact Or.inl hmem
      · rcases hleft q hq with rfl | hq
        · exact hguard q k hp hk ho hgone hkey
        · exact Or.inr ⟨q, hq, rfl, rfl⟩

theorem Sound.reconnect (h : Sound s) (hguard : s.socket ≠ none → s.Connected) : Sound s.reconnect := by
  have hconnected := h.connect hguard
  unfold State.reconnect
  split
  · split
    · exact hconnected.rest _ hconnected.connecting _ _ _
    · exact hconnected.rest _ hconnected.connecting _ _ _
  · exact hconnected.rest _ hconnected.connecting _ _ _

theorem Sound.resend (h : Sound s) (hk : s.sockets[i]? = some k) :
    Sound (s.modify i fun k =>
      { State.request (s.subscriptions.rows.map ClientMessage.key) k with resend := .done }) := by
  have hmem (key : String) : key ∈ s.subscriptions.rows.map ClientMessage.key ↔ s.listeners key ≠ [] := by
    rw [← h.keys key]
    simp only [List.mem_map, Ne, Table.get_eq_none, not_forall, not_not, exists_prop]
  have hready : (State.request (s.subscriptions.rows.map ClientMessage.key) k).readyState = k.readyState := by
    unfold State.request
    split <;> rfl
  refine h.modify hk (by unfold State.request; split <;> rfl) (fun hc => hready.trans hc) (fun _ => by simp)
    (fun hc => ?_) (fun ho key hkey => ?_) fun ho _ key hkey => ?_
  · rw [hready] at hc
    dsimp only
    rw [State.request, if_neg (by simp [hc])]
    exact h.fresh i k hk hc
  · rw [hready] at ho
    dsimp only at hkey
    rw [State.request, if_pos ho, List.mem_append] at hkey
    exact hkey.elim (h.asked i k hk ho key) (hmem key).mp
  · rw [hready] at ho
    dsimp only
    rw [State.request, if_pos ho]
    exact Or.inl (List.mem_append_right _ ((hmem key).mpr hkey))

theorem Sound.clear (h : Sound s) (hk : s.sockets[i]? = some k) (hopen : k.handled = false) : Sound (s.clear i) := by
  have hsocket := h.one i k hk hopen
  have hcases {P : ℕ → Socket → Prop} (hself : ∀ x : Socket, P i { x with readyState := .closed, handled := true })
      (hother : ∀ j k', j ≠ i → s.sockets[j]? = some k' → P j k') (j : ℕ) (k' : Socket)
      (hk' : (s.clear i).sockets[j]? = some k') : P j k' := by
    rcases getElem?_modify_socket hk' with ⟨rfl, x, -, rfl⟩ | ⟨hne, hx⟩
    · exact hself x
    · exact hother j k' hne hx
  have hothers (j : ℕ) (k' : Socket) (hne : j ≠ i) (hk' : s.sockets[j]? = some k') : k'.handled = true := by
    by_contra hnot
    have hone := h.one j k' hk' (by simpa using hnot)
    exact hne (Option.some.inj (hone.symm.trans hsocket))
  have hshut (j : ℕ) (k' : Socket) (hne : j ≠ i) (hk' : s.sockets[j]? = some k') (ho : k'.readyState = .open)
      {b : Prop} : b := by
    rw [h.closed j k' hk' (hothers j k' hne hk')] at ho
    cases ho
  refine ⟨h.keys, ?_, ?_, nofun, nofun, ?_, ?_, ?_, ?_⟩
  · exact hcases nofun fun j k' hne hk' hnot => absurd (hothers j k' hne hk') (by simp [hnot])
  · exact hcases (fun x _ => rfl) fun j k' _ hk' => h.closed j k' hk'
  · exact hcases nofun fun j k' hne hk' ho => hshut j k' hne hk' ho
  · exact hcases nofun fun j k' _ hk' => h.fresh j k' hk'
  · exact hcases nofun fun j k' hne hk' ho => hshut j k' hne hk' ho
  · exact hcases nofun fun j k' hne hk' ho => hshut j k' hne hk' ho

theorem Sound.step (h : Sound s) (hguard : Orderly s a) : Sound (step s a) := by
  cases a with
  | subscribe m l => exact h.subscribe hguard m l
  | unsubscribe m l => exact h.unsubscribe m l
  | ask n => exact h.ask hguard
  | timer =>
    simp only [Multiplexer.step]
    split
    · next htimer => exact h.reconnect (hguard htimer)
    · exact h
  | opened i =>
    simp only [Multiplexer.step]
    split
    · next k hk =>
      split
      · next hconnecting =>
        have hopened : Sound (s.modify i fun k => { k with readyState := .open, resend := .due }) := by
          refine h.modify hk rfl (fun hc => absurd (hc.symm.trans hconnecting) (by decide)) (fun _ => by simp)
            nofun (fun _ key hkey => ?_) nofun
          rw [h.fresh i k hk hconnecting] at hkey
          cases hkey
        exact hopened.rest _ hopened.connecting s.reconnectTimer _ s.checks
      · exact h
    · exact h
  | resend i =>
    simp only [Multiplexer.step]
    split
    · next k hk =>
      split
      · exact h.resend hk
      · exact h
    · exact h
  | settle i =>
    simp only [Multiplexer.step]
    split
    · next k hk =>
      split
      · have hsettled : Sound (s.modify i fun k => { k with settled := true }) :=
          h.modify hk rfl (fun hc => hc) (h.waiting i k hk) (h.fresh i k hk) (h.asked i k hk) (h.covers i k hk)
        exact hsettled.rest false nofun s.reconnectTimer s.reconnects s.checks
      · exact h
    · exact h
  | error i =>
    simp only [Multiplexer.step]
    split
    · next k hk =>
      split
      · exact h.modify hk rfl (fun _ => rfl) nofun nofun nofun nofun
      · exact h
    · exact h
  | closing i =>
    simp only [Multiplexer.step]
    split
    · next k hk =>
      split
      · next hlive =>
        refine h.modify hk rfl (fun hc => ?_) nofun nofun nofun nofun
        rw [hc] at hlive
        exact absurd hlive (by decide)
      · exact h
    · exact h
  | close i sessionEnded =>
    simp only [Multiplexer.step]
    split
    · next k hk =>
      split
      · next hopen =>
        have hclear := h.clear hk hopen
        unfold State.onclose
        split
        · exact hclear.rest _ hclear.connecting _ _ _
        · exact hclear.scheduleReconnect
      · exact h
    · exact h
  | checked reopen =>
    have hchecked := h.rest _ h.connecting s.reconnectTimer s.reconnects (s.checks - 1)
    simp only [Multiplexer.step]
    split
    · exact h
    · split
      · exact hchecked.scheduleReconnect
      · exact hchecked
  | rejected n =>
    simp only [Multiplexer.step]
    split
    · split
      · exact (h.rest _ h.connecting s.reconnectTimer (s.reconnects.eraseIdx n) s.checks).scheduleReconnect
      · exact h
    · exact h

theorem sound_start : Sound State.start := by
  refine ⟨fun key => ?_, nofun, nofun, nofun, nofun, nofun, nofun, nofun, nofun⟩
  simp [State.start]

theorem Sound.asks (h : Sound s) : s.Asked := by
  refine ⟨fun i j k k' hk hk' hlive hlive' => ?_, h.keys, fun hquiet k hk ho key => ?_, fun m hnamed => ?_⟩
  · have hopen {i : ℕ} {k : Socket} (hk : s.sockets[i]? = some k) (hlive : k.live = true) : s.socket = some i := by
      refine h.one i k hk ?_
      by_contra hhandled
      rw [Socket.live, h.closed i k hk (by simpa using hhandled)] at hlive
      cases hlive
    exact Option.some.inj ((hopen hk hlive).symm.trans (hopen hk' hlive'))
  · obtain ⟨i, hi⟩ := List.getElem?_of_mem hk
    refine ⟨h.asked i k hi ho key, fun hkey => ?_⟩
    have hdone : k.resend = .done := by
      cases hresend : k.resend with
      | waiting => exact absurd hresend (h.waiting i k hi ho)
      | due => exact absurd hresend (hquiet.resend k hk)
      | done => rfl
    refine (h.covers i k hi ho hdone key hkey).resolve_right ?_
    rintro ⟨p, hp, -⟩
    rw [hquiet.asks] at hp
    cases hp
  · rw [State.dispatch, Option.filter_some, if_pos (decide_eq_true hnamed)]
    rfl

end Steps

/-- In every run that keeps to one socket and leaves no REQUEST to a listener that has gone, the page
has asked for what it listens to. -/
theorem page_asks_for_what_it_listens_to (as : List Step) (h : Along step Orderly State.start as) :
    (exec step State.start as).Asked :=
  (exec_invariant (fun _ _ => Sound.step) sound_start h).asks

def pods : ClientMessage := ⟨"c1", "/api/v1/pods", "watch=1"⟩

def nodes : ClientMessage := ⟨"c1", "/api/v1/nodes", "watch=1"⟩

/-- A page that listens to the pods on an open socket. -/
def podsOpen : List Step := [.subscribe pods 1, .opened 0, .resend 0, .settle 0]

theorem page_asks_for_pods_and_nodes :
    (exec step State.start (podsOpen ++ [Step.subscribe nodes 2, .ask 0, .unsubscribe pods 1])).Asked := by
  apply page_asks_for_what_it_listens_to
  refine ⟨fun hsome => absurd rfl hsome, trivial, trivial, trivial, fun _ => Or.inl rfl, ?_, trivial, trivial⟩
  rintro p k ⟨⟩ - - hgone
  exact absurd (by decide) hgone

/-- Two listeners come to the nodes and the first leaves before its subscribe goes on: nobody asks
for them. A subscribe while the socket is closing makes a second one, and the first one's `onclose`
lets the timer make a third. -/
theorem nodes_never_asked_for :
    ¬(exec step State.start (podsOpen ++ [Step.subscribe nodes 1, .subscribe nodes 2, .unsubscribe nodes 1,
        .ask 0])).Asked ∧
    ¬(exec step State.start (podsOpen ++ [Step.closing 0, .subscribe nodes 2, .close 0 false, .timer,
        .opened 1, .opened 2])).Asked := by
  constructor
  · intro h
    have hasked := (h.asked ⟨rfl, by decide⟩ _ List.mem_cons_self rfl nodes.key).mpr (by decide)
    exact absurd hasked (by decide)
  · intro h
    exact absurd (h.one 1 2 _ _ rfl rfl rfl rfl) (by decide)

end Kubeast.Multiplexer
