import Kubeast.WatchServer.Places

/-! Watch places are neither leaked nor taken twice. -/
namespace Kubeast.WatchServer
open Keyed Transition

variable {m : Limits} {s : State} {i j n : ℕ} {c d : Conn} {key : String} {e : String × ℕ} {w : Watch}

/-- An open connection has the entry in its map. -/
def State.Holds (s : State) (i : ℕ) (e : String × ℕ) : Prop :=
  ∃ c, s.conns[i]? = some c ∧ c.isOpen = true ∧ e ∈ c.connSubs

/-- A key of the connection: its name stands before the first colon. -/
def Conn.Names (c : Conn) (key : String) : Prop := ∃ rest, key.toList = c.wsID.1.toList ++ ':' :: rest

structure Sound (m : Limits) (s : State) : Prop where
  keys : (s.subs.map Prod.fst).Nodup
  own : ∀ (i : ℕ) (c : Conn), s.conns[i]? = some c → c.isOpen = true →
    (c.connSubs.map Prod.fst).Nodup ∧ ∀ e ∈ c.connSubs, c.Names e.1
  union : ∀ e, e ∈ s.subs ↔ ∃ i, s.Holds i e
  names : ∀ (i j : ℕ) (c d : Conn), s.conns[i]? = some c → s.conns[j]? = some d → c.isOpen = true → d.isOpen = true →
    c.wsID = d.wsID → i = j
  perConn : ∀ (i : ℕ) (c : Conn), s.conns[i]? = some c → c.isOpen = true → c.connSubs.length ≤ m.maxPerConn
  total : s.subs.length ≤ m.maxTotal
  known : ∀ i e, s.Holds i e → ∃ w, s.watches[e.2]? = some w ∧ w.conn = i ∧ w.key = e.1 ∧ w.cancelled = false
  live : ∀ (n : ℕ) (w : Watch), s.watches[n]? = some w → w.cancelled = false → s.Holds w.conn (w.key, n)

section Names

theorem names_key (c : Conn) (req : RequestMessage) : c.Names (c.key req) := by
  refine ⟨(subscriptionCluster c req.clusterID ++ ":" ++ req.path ++ "?" ++ req.query).toList, ?_⟩
  simp [Conn.key]

theorem Conn.Names.wsID (hc : c.Names key) (hd : d.Names key) : c.wsID = d.wsID := by
  obtain ⟨rest, hc⟩ := hc
  obtain ⟨rest', hd⟩ := hd
  exact Subtype.ext (String.toList_injective
    (Text.append_cons_inj c.wsID.2 d.wsID.2 (hc.symm.trans hd)).1)

end Names

section Entries

/-- An entry is the only one under its key, and one connection holds it. -/
theorem Sound.holds_unique (h : Sound m s) {e' : String × ℕ} (he : s.Holds i e) (he' : s.Holds j e')
    (hkey : e.1 = e'.1) : i = j ∧ e = e' := by
  have heq : e = e' := List.inj_on_of_nodup_map h.keys ((h.union e).mpr ⟨i, he⟩) ((h.union e').mpr ⟨j, he'⟩) hkey
  subst heq
  obtain ⟨w, hw, hi, -⟩ := h.known i e he
  obtain ⟨w', hw', hj, -⟩ := h.known j e he'
  rw [hw] at hw'
  obtain rfl := Option.some.inj hw'
  exact ⟨hi.symm.trans hj, rfl⟩

theorem Sound.lookup_iff (h : Sound m s) : s.subs.lookup key = some n ↔ ∃ i, s.Holds i (key, n) := by
  rw [← mem_iff_lookup h.keys, h.union]

/-- A key that is in no map is held by no connection. -/
theorem Sound.lookup_none (h : Sound m s) (hnone : s.subs.lookup key = none) (he : s.Holds i e) : e.1 ≠ key := by
  rintro rfl
  have hmem := (h.union e).mpr ⟨i, he⟩
  exact lookup_eq_none.mp hnone (List.mem_map_of_mem hmem)

theorem put_of_none {l : List (String × ℕ)} (h : l.lookup key = none) : put l key n = l ++ [(key, n)] := by
  rw [put, h]
  rfl

theorem mem_erase {l : List (String × ℕ)} : e ∈ erase l key ↔ e ∈ l ∧ e.1 ≠ key := by
  simp [erase]

end Entries

section Replace
variable {s' : State} {c' : Conn}

theorem getElem?_set (hc : s.conns[i]? = some c) :
    (s.conns.set i c')[j]? = if j = i then some c' else s.conns[j]? := by
  obtain ⟨hi, -⟩ := List.getElem?_eq_some_iff.mp hc
  rw [List.getElem?_set]
  by_cases hj : j = i
  · rw [hj, if_pos rfl, if_pos rfl, if_pos hi]
  · rw [if_neg (Ne.symm hj), if_neg hj]

theorem holds_set (hconns : s'.conns = s.conns.set i c') (hc : s.conns[i]? = some c) :
    s'.Holds j e ↔ if j = i then c'.isOpen = true ∧ e ∈ c'.connSubs else s.Holds j e := by
  unfold State.Holds
  rw [hconns]
  simp only [getElem?_set hc]
  split_ifs
  · simp
  · rfl

theorem holds_self (hc : s.conns[i]? = some c) : s.Holds i e ↔ c.isOpen = true ∧ e ∈ c.connSubs := by
  simp [State.Holds, hc]

/-- One connection changes, under its name; the maps fit again. -/
theorem Sound.replace (h : Sound m s) (hc : s.conns[i]? = some c) (hopen : c.isOpen = true)
    (hconns : s'.conns = s.conns.set i c') (hname : c'.wsID = c.wsID)
    (hown : c'.isOpen = true → (c'.connSubs.map Prod.fst).Nodup ∧ (∀ e ∈ c'.connSubs, c'.Names e.1) ∧
      c'.connSubs.length ≤ m.maxPerConn)
    (hkeys : (s'.subs.map Prod.fst).Nodup) (htotal : s'.subs.length ≤ m.maxTotal)
    (hunion : ∀ e, e ∈ s'.subs ↔ ∃ i, s'.Holds i e)
    (hknown : ∀ i e, s'.Holds i e → ∃ w, s'.watches[e.2]? = some w ∧ w.conn = i ∧ w.key = e.1 ∧ w.cancelled = false)
    (hlive : ∀ (n : ℕ) (w : Watch), s'.watches[n]? = some w → w.cancelled = false → s'.Holds w.conn (w.key, n)) :
    Sound m s' := by
  have hcases : ∀ (j : ℕ) (d : Conn), s'.conns[j]? = some d → (j = i ∧ d = c') ∨ (j ≠ i ∧ s.conns[j]? = some d) := by
    intro j d hd
    rw [hconns, getElem?_set hc] at hd
    split_ifs at hd with hj
    · exact .inl ⟨hj, (Option.some.inj hd).symm⟩
    · exact .inr ⟨hj, hd⟩
  refine ⟨hkeys, ?_, hunion, ?_, ?_, htotal, hknown, hlive⟩
  · rintro j d hd hdopen
    rcases hcases j d hd with ⟨-, rfl⟩ | ⟨-, hd⟩
    · exact ⟨(hown hdopen).1, (hown hdopen).2.1⟩
    · exact h.own j d hd hdopen
  · rintro j k d d' hd hd' hdopen hdopen' hsame
    rcases hcases j d hd with ⟨rfl, rfl⟩ | ⟨-, hd⟩ <;> rcases hcases k d' hd' with ⟨rfl, rfl⟩ | ⟨-, hd'⟩
    · rfl
    · exact h.names _ _ c d' hc hd' hopen hdopen' (hname.symm.trans hsame)
    · exact h.names _ _ d c hd hc hdopen hopen (hsame.trans hname)
    · exact h.names _ _ d d' hd hd' hdopen hdopen' hsame
  · rintro j d hd hdopen
    rcases hcases j d hd with ⟨-, rfl⟩ | ⟨-, hd⟩
    · exact (hown hdopen).2.2
    · exact h.perConn j d hd hdopen

end Replace

section Take

theorem holds_take (hc : s.conns[i]? = some c) (hopen : c.isOpen = true) (hfree : c.connSubs.lookup key = none) :
    (s.take i c key).Holds j e ↔ s.Holds j e ∨ (j = i ∧ e = (key, s.watches.length)) := by
  rw [holds_set rfl hc, put_of_none hfree, List.mem_append, List.mem_singleton]
  split_ifs with hj
  · subst hj
    rw [holds_self hc]
    simp [hopen]
  · simp [hj]

theorem Sound.lookup_own (h : Sound m s) (hc : s.conns[i]? = some c) (hopen : c.isOpen = true)
    (hfree : s.subs.lookup key = none) : c.connSubs.lookup key = none := by
  rw [lookup_eq_none]
  intro hmem
  obtain ⟨e, he, rfl⟩ := List.mem_map.mp hmem
  exact h.lookup_none hfree ((holds_self hc).mpr ⟨hopen, he⟩) rfl

/-- A new watch where its key is free and both limits leave a place. -/
theorem Sound.take (h : Sound m s) (hc : s.conns[i]? = some c) (hopen : c.isOpen = true) (hkey : c.Names key)
    (hfree : s.subs.lookup key = none) (hconn : c.connSubs.length < m.maxPerConn)
    (htotal : s.subs.length < m.maxTotal) : Sound m (s.take i c key) := by
  obtain ⟨hnodup, hnames⟩ := h.own i c hc hopen
  have hfree' : c.connSubs.lookup key = none := h.lookup_own hc hopen hfree
  have hiff : ∀ j e, (s.take i c key).Holds j e ↔ s.Holds j e ∨ (j = i ∧ e = (key, s.watches.length)) :=
    fun j e => holds_take hc hopen hfree'
  refine h.replace hc hopen rfl rfl (fun _ => ⟨nodup_put hnodup, ?_, ?_⟩) (nodup_put h.keys) ?_ ?_ ?_ ?_
  · intro e he
    rw [put_of_none hfree'] at he
    rcases List.mem_append.mp he with he | he
    · exact hnames e he
    · rw [List.mem_singleton.mp he]
      exact hkey
  · rw [put_of_none hfree', List.length_append]
    exact hconn
  · show (put s.subs key s.watches.length).length ≤ m.maxTotal
    rw [put_of_none hfree, List.length_append]
    exact htotal
  · intro e
    show e ∈ put s.subs key s.watches.length ↔ _
    rw [put_of_none hfree, List.mem_append, List.mem_singleton, h.union]
    simp only [hiff, exists_or, exists_eq_left]
  · intro j e he
    rcases (hiff j e).mp he with he | ⟨rfl, rfl⟩
    · obtain ⟨w, hw, hrest⟩ := h.known j e he
      exact ⟨w, (List.getElem?_append_left (List.getElem?_eq_some_iff.mp hw).1).trans hw, hrest⟩
    · exact ⟨_, List.getElem?_concat_length, rfl, rfl, rfl⟩
  · intro n w hw hlive
    rw [hiff]
    rcases Nat.lt_or_ge n s.watches.length with hn | hn
    · exact .inl (h.live n w ((List.getElem?_append_left hn).symm.trans hw) hlive)
    · have hwatch : [(⟨i, key, false⟩ : Watch)][n - s.watches.length]? = some w :=
        (List.getElem?_append_right hn).symm.trans hw
      obtain ⟨hlt, rfl⟩ := List.getElem?_eq_some_iff.mp hwatch
      rw [List.length_singleton, Nat.lt_one_iff] at hlt
      have hn' : n = s.watches.length := by omega
      exact .inr ⟨by simp, by simp [hn']⟩

end Take

section Drop

/-- Two entries with one pointer, or one key, are one entry of one connection. -/
theorem Sound.holds_pointer (h : Sound m s) {e' : String × ℕ} (he : s.Holds i e) (he' : s.Holds j e') :
    e.1 = e'.1 ↔ e.2 = e'.2 := by
  constructor
  · exact fun hkey => congrArg Prod.snd (h.holds_unique he he' hkey).2
  · intro hpointer
    obtain ⟨w, hw, -, hkey, -⟩ := h.known i e he
    obtain ⟨w', hw', -, hkey', -⟩ := h.known j e' he'
    rw [hpointer, hw'] at hw
    obtain rfl := Option.some.inj hw
    exact hkey.symm.trans hkey'

/-- Watches are cancelled and their entries taken out of both maps. -/
theorem Sound.cancel (h : Sound m s) {s' : State} {c' : Conn} (hit : ℕ → Prop) [DecidablePred hit]
    (hc : s.conns[i]? = some c) (hopen : c.isOpen = true)
    (hconns : s'.conns = s.conns.set i c') (hname : c'.wsID = c.wsID) (hpart : c'.connSubs.Sublist c.connSubs)
    (hsub : s'.subs.Sublist s.subs) (hsubs : ∀ e, e ∈ s'.subs ↔ e ∈ s.subs ∧ ¬hit e.2)
    (hholds : ∀ j e, s'.Holds j e ↔ s.Holds j e ∧ ¬hit e.2)
    (hwatches : ∀ k, s'.watches[k]? = s.watches[k]?.map fun w => if hit k then w.cancel else w) : Sound m s' := by
  obtain ⟨hnodup, hnames⟩ := h.own i c hc hopen
  refine h.replace hc hopen hconns hname (fun _ => ⟨hnodup.sublist (hpart.map _), ?_, ?_⟩)
    (h.keys.sublist (hsub.map _)) (hsub.length_le.trans h.total) ?_ ?_ ?_
  · intro e he
    obtain ⟨rest, hrest⟩ := hnames e (hpart.subset he)
    exact ⟨rest, hname ▸ hrest⟩
  · exact hpart.length_le.trans (h.perConn i c hc hopen)
  · intro e
    rw [hsubs, h.union]
    simp only [hholds, exists_and_right]
  · intro j e he
    obtain ⟨he, hnot⟩ := (hholds j e).mp he
    obtain ⟨w, hw, hrest⟩ := h.known j e he
    refine ⟨w, ?_, hrest⟩
    rw [hwatches, hw, Option.map_some, if_neg hnot]
  · intro k w hw hlive
    rw [hwatches, Option.map_eq_some_iff] at hw
    obtain ⟨w', hw', rfl⟩ := hw
    split_ifs at hlive ⊢ with hk
    · cases hlive
    · exact (hholds _ _).mpr ⟨h.live k w' hw' hlive, hk⟩

theorem Sound.holds_drop (h : Sound m s) (hc : s.conns[i]? = some c) (he : s.Holds i (key, n)) :
    (s.drop i c key n).Holds j e ↔ s.Holds j e ∧ e.2 ≠ n := by
  rw [holds_set rfl hc]
  split_ifs with hj
  · subst hj
    rw [mem_erase, ← and_assoc, ← holds_self hc]
    exact and_congr_right fun hj => not_congr (h.holds_pointer hj he)
  · refine ⟨fun hother => ⟨hother, fun hn => hj ?_⟩, And.left⟩
    exact (h.holds_unique hother he ((h.holds_pointer hother he).mpr hn)).1

theorem Sound.drop (h : Sound m s) (hc : s.conns[i]? = some c) (he : s.Holds i (key, n)) :
    Sound m (s.drop i c key n) := by
  have hopen : c.isOpen = true := ((holds_self hc).mp he).1
  refine h.cancel (· = n) hc hopen rfl rfl List.filter_sublist List.filter_sublist ?_
    (fun j e => h.holds_drop hc he) ?_
  · intro e
    show e ∈ erase s.subs key ↔ _
    rw [mem_erase, h.union]
    exact and_congr_right fun ⟨j, hj⟩ => not_congr (h.holds_pointer hj he)
  · intro k
    show (s.watches.modify n Watch.cancel)[k]? = _
    rw [List.getElem?_modify]
    simp only [eq_comm (a := n)]
    rfl

end Drop

section Disconnect

theorem mem_foldl_erase {l : List (String × ℕ)} {subs : List (String × ℕ)} :
    e ∈ l.foldl (fun subs e => erase subs e.1) subs ↔ e ∈ subs ∧ ∀ x ∈ l, e.1 ≠ x.1 := by
  induction l generalizing subs with
  | nil => simp
  | cons x l ih => rw [List.foldl_cons, ih, mem_erase, List.forall_mem_cons, and_assoc]

theorem foldl_erase_sublist (l subs : List (String × ℕ)) :
    (l.foldl (fun subs e => erase subs e.1) subs).Sublist subs := by
  induction l generalizing subs with
  | nil => exact List.Sublist.refl _
  | cons x l ih => exact (ih _).trans List.filter_sublist

theorem getElem?_foldl_modify {f : Watch → Watch} (hf : ∀ w, f (f w) = f w) (l : List (String × ℕ))
    (watches : List Watch) (k : ℕ) :
    (l.foldl (fun watches e => watches.modify e.2 f) watches)[k]? =
      watches[k]?.map fun w => if ∃ e ∈ l, e.2 = k then f w else w := by
  induction l generalizing watches with
  | nil => simp
  | cons x l ih =>
    rw [List.foldl_cons, ih, List.getElem?_modify]
    simp only [List.exists_mem_cons_iff]
    cases watches[k]? with
    | none => rfl
    | some w =>
      by_cases hx : x.2 = k <;> by_cases hl : ∃ e ∈ l, e.2 = k <;> simp [hx, hl, hf]

theorem cancel_cancel (w : Watch) : w.cancel.cancel = w.cancel := rfl

/-- The connection's entries are those that its cleanup takes out. -/
theorem Sound.mem_connSubs (h : Sound m s) (hc : s.conns[i]? = some c) (hopen : c.isOpen = true)
    (he : s.Holds j e) : (∃ x ∈ c.connSubs, x.2 = e.2) ↔ j = i := by
  constructor
  · rintro ⟨x, hx, hpointer⟩
    have hx' : s.Holds i x := (holds_self hc).mpr ⟨hopen, hx⟩
    exact (h.holds_unique he hx' ((h.holds_pointer he hx').mpr hpointer.symm)).1
  · rintro rfl
    exact ⟨e, ((holds_self hc).mp he).2, rfl⟩

theorem Sound.holds_leave (h : Sound m s) (hc : s.conns[i]? = some c) (hopen : c.isOpen = true) :
    (s.leave i c).Holds j e ↔ s.Holds j e ∧ ¬∃ x ∈ c.connSubs, x.2 = e.2 := by
  rw [holds_set rfl hc]
  split_ifs with hj
  · subst hj
    simp only [false_and, false_iff, not_and, not_not]
    exact fun he => (h.mem_connSubs hc hopen he).mpr rfl
  · exact ⟨fun he => ⟨he, mt (h.mem_connSubs hc hopen he).mp hj⟩, And.left⟩

theorem Sound.leave (h : Sound m s) (hc : s.conns[i]? = some c) (hopen : c.isOpen = true) :
    Sound m (s.leave i c) := by
  refine h.cancel (fun k => ∃ x ∈ c.connSubs, x.2 = k) hc hopen rfl rfl (List.Sublist.refl _)
    (foldl_erase_sublist _ _) ?_ (fun j e => h.holds_leave hc hopen) fun k =>
    getElem?_foldl_modify cancel_cancel c.connSubs s.watches k
  intro e
  show e ∈ c.connSubs.foldl _ s.subs ↔ _
  rw [mem_foldl_erase, h.union]
  refine and_congr_right fun ⟨j, hj⟩ => ?_
  push Not
  refine forall₂_congr fun x hx => ?_
  have hx' : s.Holds i x := (holds_self hc).mpr ⟨hopen, hx⟩
  exact (not_congr (h.holds_pointer hj hx')).trans ne_comm

theorem Sound.disconnect (h : Sound m s) (i : ℕ) : Sound m (s.disconnect i) := by
  unfold State.disconnect
  cases hc : s.conns[i]? with
  | none => exact h
  | some c =>
    dsimp only
    split_ifs with hopen
    · exact h.leave hc hopen
    · exact h

end Disconnect

section Steps

/-- What a watch that holds nothing marks on itself. -/
theorem Sound.mark (h : Sound m s) (hn : ∀ w, s.watches[n]? = some w → w.cancelled = true) :
    Sound m { s with watches := s.watches.modify n Watch.cancel } := by
  refine ⟨h.keys, h.own, h.union, h.names, h.perConn, h.total, ?_, ?_⟩
  · intro i e he
    obtain ⟨w, hw, hconn, hkey, hlive⟩ := h.known i e he
    have hne : n ≠ e.2 := by
      rintro rfl
      rw [hn w hw] at hlive
      cases hlive
    exact ⟨w, (List.getElem?_modify_ne Watch.cancel s.watches hne).trans hw, hconn, hkey, hlive⟩
  · intro k w hw hlive
    by_cases hk : n = k
    · subst hk
      have hw' : (Watch.cancel <$> s.watches[n]?) = some w :=
        (List.getElem?_modify_eq Watch.cancel n s.watches).symm.trans hw
      obtain ⟨w', -, rfl⟩ := Option.map_eq_some_iff.mp hw'
      cases hlive
    · exact h.live k w ((List.getElem?_modify_ne Watch.cancel s.watches hk).symm.trans hw) hlive

/-- A watch that ends marks itself, or frees the place that it still holds. -/
theorem Sound.forget_cases (h : Sound m s) (n : ℕ) : s.forgetSubscription n = s ∨
    (s.forgetSubscription n = { s with watches := s.watches.modify n Watch.cancel } ∧
      ∀ w, s.watches[n]? = some w → w.cancelled = true) ∨
    ∃ i c key, s.conns[i]? = some c ∧ s.Holds i (key, n) ∧
      s.forgetSubscription n = s.drop i c key n := by
  unfold State.forgetSubscription
  cases hw : s.watches[n]? with
  | none => exact .inl rfl
  | some w =>
    dsimp only
    split_ifs with hlook
    · obtain ⟨i, he⟩ := h.lookup_iff.mp hlook
      obtain ⟨w', hw', hconn, -⟩ := h.known i _ he
      rw [hw] at hw'
      obtain rfl := Option.some.inj hw'
      obtain ⟨c, hc, hopen, hmem⟩ := he
      refine .inr (.inr ⟨i, c, w.key, hc, ⟨c, hc, hopen, hmem⟩, ?_⟩)
      have hmodify : (s.conns.modify w.conn fun c => { c with connSubs := erase c.connSubs w.key }) =
          s.conns.set i { c with connSubs := erase c.connSubs w.key } := by
        refine List.ext_getElem? fun k => ?_
        rw [getElem?_set hc, List.getElem?_modify, hconn]
        by_cases hk : k = i
        · simp [hk, hc]
        · simp [hk, Ne.symm hk]
      rw [hmodify]
      rfl
    · refine .inr (.inl ⟨rfl, fun w' hw' => ?_⟩)
      obtain rfl := Option.some.inj hw'
      by_contra hlive
      exact hlook (h.lookup_iff.mpr ⟨_, h.live n w hw (Bool.eq_false_of_not_eq_true hlive)⟩)

theorem Sound.forget (h : Sound m s) (n : ℕ) : Sound m (s.forgetSubscription n) := by
  rcases h.forget_cases n with heq | ⟨heq, hmarked⟩ | ⟨i, c, key, hc, he, heq⟩
  · rw [heq]
    exact h
  · rw [heq]
    exact h.mark hmarked
  · rw [heq]
    exact h.drop hc he

theorem Sound.connect (h : Sound m s) (wsID : Name) (cluster : Option String) :
    Sound m (s.connect wsID cluster) := by
  unfold State.connect
  split_ifs with hused
  · exact h
  · have hcases : ∀ (j : ℕ) (d : Conn), (s.conns ++ [⟨wsID, cluster, true, []⟩])[j]? = some d →
        s.conns[j]? = some d ∨ j = s.conns.length ∧ d = ⟨wsID, cluster, true, []⟩ := by
      intro j d hd
      rw [List.getElem?_append] at hd
      split_ifs at hd with hj
      · exact .inl hd
      · obtain ⟨hlt, rfl⟩ := List.getElem?_eq_some_iff.mp hd
        rw [List.length_singleton, Nat.lt_one_iff] at hlt
        exact .inr ⟨by omega, by simp⟩
    have hfree : ∀ (j : ℕ) (d : Conn), s.conns[j]? = some d → d.isOpen = true → d.wsID ≠ wsID := by
      intro j d hd hopen hsame
      refine hused (List.any_eq_true.mpr ⟨d, List.mem_of_getElem? hd, ?_⟩)
      simp [hopen, hsame]
    have hholds : ∀ j e, State.Holds { s with conns := s.conns ++ [⟨wsID, cluster, true, []⟩] } j e ↔ s.Holds j e := by
      intro j e
      constructor
      · rintro ⟨d, hd, hopen, he⟩
        rcases hcases j d hd with hd | ⟨-, rfl⟩
        · exact ⟨d, hd, hopen, he⟩
        · cases he
      · rintro ⟨d, hd, hopen, he⟩
        exact ⟨d, (List.getElem?_append_left (List.getElem?_eq_some_iff.mp hd).1).trans hd, hopen, he⟩
    refine ⟨h.keys, ?_, ?_, ?_, ?_, h.total, ?_, ?_⟩
    · rintro j d hd hopen
      rcases hcases j d hd with hd | ⟨-, rfl⟩
      · exact h.own j d hd hopen
      · exact ⟨List.nodup_nil, nofun⟩
    · intro e
      simp only [hholds]
      exact h.union e
    · rintro j k d d' hd hd' hopen hopen' hsame
      rcases hcases j d hd with hd | ⟨rfl, rfl⟩ <;> rcases hcases k d' hd' with hd' | ⟨rfl, rfl⟩
      · exact h.names j k d d' hd hd' hopen hopen' hsame
      · exact absurd hsame (hfree j d hd hopen)
      · exact absurd hsame.symm (hfree k d' hd' hopen')
      · rfl
    · rintro j d hd hopen
      rcases hcases j d hd with hd | ⟨-, rfl⟩
      · exact h.perConn j d hd hopen
      · exact Nat.zero_le _
    · intro j e he
      exact h.known j e ((hholds j e).mp he)
    · intro n w hw hlive
      exact (hholds _ _).mpr (h.live n w hw hlive)

theorem Sound.message (h : Sound m s) (i : ℕ) (req : RequestMessage) (refusal : Option Refusal) :
    Sound m (s.message m i req refusal) := by
  unfold State.message
  cases hc : s.conns[i]? with
  | none => exact h
  | some c =>
    dsimp only
    split_ifs with hopen hrequest hclose
    · unfold State.request
      cases refusal with
      | some r => exact ⟨h.keys, h.own, h.union, h.names, h.perConn, h.total, h.known, h.live⟩
      | none =>
        dsimp only
        split_ifs with htaken hlimit
        · exact h
        · exact ⟨h.keys, h.own, h.union, h.names, h.perConn, h.total, h.known, h.live⟩
        · rw [not_or, not_le, not_le] at hlimit
          exact h.take hc hopen (names_key c req) (Option.not_isSome_iff_eq_none.mp htaken) hlimit.1 hlimit.2
    · unfold State.close
      cases hlook : c.connSubs.lookup (c.key req) with
      | none => exact h
      | some n => exact h.drop hc ((holds_self hc).mpr ⟨hopen, mem_of_lookup hlook⟩)
    · exact h
    · exact h

theorem sound_init (m : Limits) : Sound m .init where
  keys := List.nodup_nil
  own := nofun
  union e := ⟨nofun, fun ⟨_, _, hc, _⟩ => by cases hc⟩
  names := nofun
  perConn := nofun
  total := Nat.zero_le _
  known := fun _ _ ⟨_, hc, _⟩ => by cases hc
  live := nofun

theorem Sound.step (h : Sound m s) (a : Step) : Sound m (step m s a) := by
  cases a with
  | connect wsID cluster => exact h.connect wsID cluster
  | message i req refusal => exact h.message i req refusal
  | finish n => exact h.forget n
  | disconnect i => exact h.disconnect i

theorem sound_run (m : Limits) (as : List Step) : Sound m (exec (WatchServer.step m) .init as) :=
  exec_invariant (G := fun _ _ => True) (fun _ a h _ => h.step a) (sound_init m) (Along.of_forall fun _ _ => trivial)

end Steps

section Changes

/-- What a watch keeps: its connection and its key. -/
def Watch.place (w : Watch) : ℕ × String := (w.conn, w.key)

theorem places_cancel (watches : List Watch) (n : ℕ) :
    (watches.modify n Watch.cancel).map Watch.place = watches.map Watch.place := by
  apply List.ext_getElem?
  intro k
  rw [List.getElem?_map, List.getElem?_map, List.getElem?_modify]
  cases watches[k]? with
  | none => rfl
  | some w =>
    by_cases hk : n = k <;> simp [hk, Watch.place, Watch.cancel]

theorem places_leave (l : List (String × ℕ)) (watches : List Watch) :
    (l.foldl (fun watches e => watches.modify e.2 Watch.cancel) watches).map Watch.place =
      watches.map Watch.place := by
  induction l generalizing watches with
  | nil => rfl
  | cons e l ih => rw [List.foldl_cons, ih, places_cancel]

/-- What a step can do to the maps. -/
inductive Change (s : State) (a : Step) : State → Prop
  | idle {s' : State} (hsubs : s'.subs = s.subs)
      (hconns : ∀ (i : ℕ) (c : Conn), s.conns[i]? = some c → s'.conns[i]? = some c)
      (hplaces : s'.watches.map Watch.place = s.watches.map Watch.place) : Change s a s'
  | take {i : ℕ} {c : Conn} {req : RequestMessage} {refusal : Option Refusal}
      (ha : a = .message i req refusal) (hc : s.conns[i]? = some c) (hopen : c.isOpen = true)
      (htype : req.type = "REQUEST") (hfree : s.subs.lookup (c.key req) = none) :
      Change s a (s.take i c (c.key req))
  | drop {i n : ℕ} {c : Conn} {key : String} (hc : s.conns[i]? = some c)
      (he : s.Holds i (key, n)) (ha : a = .finish n ∨ ∃ req refusal, a = .message i req refusal ∧
        req.type = "CLOSE" ∧ key = c.key req) : Change s a (s.drop i c key n)
  | leave {i : ℕ} {c : Conn} (ha : a = .disconnect i) (hc : s.conns[i]? = some c) (hopen : c.isOpen = true) :
      Change s a (s.leave i c)

theorem Change.same {a : Step} {watches : List Watch} {sent : List (ℕ × Refusal)}
    (hplaces : watches.map Watch.place = s.watches.map Watch.place) :
    Change s a ⟨s.subs, s.conns, watches, sent⟩ := .idle rfl (fun _ _ hc => hc) hplaces

theorem Sound.change (h : Sound m s) (a : Step) : Change s a (WatchServer.step m s a) := by
  cases a with
  | connect wsID cluster =>
    refine .idle ?_ (fun i c hc => ?_) ?_ <;> simp only [WatchServer.step, State.connect] <;> split_ifs
    · rfl
    · rfl
    · exact hc
    · exact (List.getElem?_append_left (List.getElem?_eq_some_iff.mp hc).1).trans hc
    · rfl
    · rfl
  | message i req refusal =>
    simp only [WatchServer.step, State.message]
    cases hc : s.conns[i]? with
    | none => exact .same rfl
    | some c =>
      dsimp only
      split_ifs with hopen hrequest hclose
      · unfold State.request
        cases refusal with
        | some r => exact .same rfl
        | none =>
          dsimp only
          split_ifs with htaken hlimit
          · exact .same rfl
          · exact .same rfl
          · exact .take rfl hc hopen hrequest (Option.not_isSome_iff_eq_none.mp htaken)
      · unfold State.close
        cases hlook : c.connSubs.lookup (c.key req) with
        | none => exact .same rfl
        | some n =>
          exact .drop hc ((holds_self hc).mpr ⟨hopen, mem_of_lookup hlook⟩) (.inr ⟨req, refusal, rfl, hclose, rfl⟩)
      · exact .same rfl
      · exact .same rfl
  | finish n =>
    rw [WatchServer.step]
    rcases h.forget_cases n with heq | ⟨heq, -⟩ | ⟨i, c, key, hc, he, heq⟩
    · rw [heq]
      exact .same rfl
    · rw [heq]
      exact .same (places_cancel _ _)
    · rw [heq]
      exact .drop hc he (.inl rfl)
  | disconnect i =>
    simp only [WatchServer.step, State.disconnect]
    cases hc : s.conns[i]? with
    | none => exact .same rfl
    | some c =>
      dsimp only
      split_ifs with hopen
      · exact .leave rfl hc hopen
      · exact .same rfl

/-- No disconnection of the connection, and no REQUEST of the key on it. -/
def Quiet (i : ℕ) (key : String) (s : State) (a : Step) : Prop :=
  a ≠ .disconnect i ∧ ∀ req refusal, a = .message i req refusal → req.type = "REQUEST" →
    ∀ c, s.conns[i]? = some c → c.key req ≠ key

/-- No disconnection of the connection, no CLOSE of the key on it, and not the end of the watch. -/
def Spares (i : ℕ) (key : String) (n : ℕ) (s : State) (a : Step) : Prop :=
  a ≠ .disconnect i ∧ a ≠ .finish n ∧ ∀ req refusal, a = .message i req refusal → req.type = "CLOSE" →
    ∀ c, s.conns[i]? = some c → c.key req ≠ key

/-- An open connection whose key is in no map. -/
def State.Free (s : State) (i : ℕ) (key : String) : Prop :=
  (∃ c, s.conns[i]? = some c ∧ c.isOpen = true ∧ c.Names key) ∧ s.subs.lookup key = none

theorem lookup_none_of_sublist {l l' : List (String × ℕ)} (hsub : l'.Sublist l) (h : l.lookup key = none) :
    l'.lookup key = none := by
  rw [lookup_eq_none] at h ⊢
  exact fun hmem => h ((hsub.map Prod.fst).subset hmem)

/-- A connection keeps its name, and it is closed by its disconnection only. -/
theorem Change.conn {a : Step} {s' : State} (h : Change s a s') (hc : s.conns[i]? = some c) :
    ∃ d, s'.conns[i]? = some d ∧ d.wsID = c.wsID ∧ d.cluster = c.cluster ∧
      (d.isOpen = c.isOpen ∨ a = .disconnect i ∧ d.isOpen = false) := by
  have hset {s' : State} {j : ℕ} {d d' : Conn} (hconns : s'.conns = s.conns.set j d') (hd : s.conns[j]? = some d)
      (hname : d'.wsID = d.wsID ∧ d'.cluster = d.cluster)
      (hopen : d'.isOpen = d.isOpen ∨ a = .disconnect j ∧ d'.isOpen = false) :
      ∃ d, s'.conns[i]? = some d ∧ d.wsID = c.wsID ∧ d.cluster = c.cluster ∧
        (d.isOpen = c.isOpen ∨ a = .disconnect i ∧ d.isOpen = false) := by
    rw [hconns, getElem?_set hd]
    split_ifs with hij
    · subst hij
      obtain rfl := Option.some.inj (hc.symm.trans hd)
      exact ⟨d', rfl, hname.1, hname.2, hopen⟩
    · exact ⟨c, hc, rfl, rfl, .inl rfl⟩
  cases h with
  | idle _ hconns _ => exact ⟨c, hconns i c hc, rfl, rfl, .inl rfl⟩
  | take _ hd => exact hset rfl hd ⟨rfl, rfl⟩ (.inl rfl)
  | drop hd => exact hset rfl hd ⟨rfl, rfl⟩ (.inl rfl)
  | leave hleave hd => exact hset rfl hd ⟨rfl, rfl⟩ (.inr ⟨hleave, rfl⟩)

/-- An open connection stays under its name. -/
theorem Change.open {a : Step} {s' : State} (h : Change s a s') (ha : a ≠ .disconnect i)
    (hi : ∃ c, s.conns[i]? = some c ∧ c.isOpen = true ∧ c.Names key) :
    ∃ c, s'.conns[i]? = some c ∧ c.isOpen = true ∧ c.Names key := by
  obtain ⟨c, hc, hopen, hname⟩ := hi
  obtain ⟨d, hd, hsame, -, hd'⟩ := h.conn hc
  refine ⟨d, hd, (hd'.resolve_right fun hleave => ha hleave.1).trans hopen, ?_⟩
  rw [Conn.Names, hsame]
  exact hname

theorem Sound.free_step (h : Sound m s) {a : Step} (ha : Quiet i key s a) (hfree : s.Free i key) :
    (WatchServer.step m s a).Free i key := by
  refine ⟨(h.change a).open ha.1 hfree.1, ?_⟩
  obtain ⟨⟨c, hc, hopen, hname⟩, hnone⟩ := hfree
  generalize hs' : WatchServer.step m s a = s'
  have hchange : Change s a s' := hs' ▸ h.change a
  cases hchange with
  | idle hsubs => rw [hsubs, hnone]
  | @take j d req refusal hreq hd hdopen htype hdfree =>
    have hne : key ≠ d.key req := by
      rintro rfl
      obtain rfl := h.names j i d c hd hc hdopen hopen ((names_key d req).wsID hname)
      exact ha.2 req refusal hreq htype d hd rfl
    exact (lookup_put_ne hne).trans hnone
  | drop => exact lookup_none_of_sublist List.filter_sublist hnone
  | leave => exact lookup_none_of_sublist (foldl_erase_sublist _ _) hnone

theorem Sound.holds_step (h : Sound m s) {a : Step} (ha : Spares i key n s a) (he : s.Holds i (key, n)) :
    (WatchServer.step m s a).Holds i (key, n) := by
  generalize hs' : WatchServer.step m s a = s'
  have hchange : Change s a s' := hs' ▸ h.change a
  cases hchange with
  | idle _ hconns _ =>
    obtain ⟨c, hc, hopen, hmem⟩ := he
    exact ⟨c, hconns i c hc, hopen, hmem⟩
  | @take j d req refusal hreq hd hdopen htype hdfree =>
    have hfree : d.connSubs.lookup (d.key req) = none := h.lookup_own hd hdopen hdfree
    exact (holds_take hd hdopen hfree).mpr (.inl he)
  | @drop j n' d key' hd hd' hcause =>
    refine (h.holds_drop hd hd').mpr ⟨he, ?_⟩
    rintro rfl
    obtain ⟨rfl, heq⟩ := h.holds_unique he hd' ((h.holds_pointer he hd').mpr rfl)
    obtain ⟨rfl, -⟩ := Prod.mk.inj heq
    rcases hcause with hfinish | ⟨req, refusal, hreq, htype, hkey⟩
    · exact ha.2.1 hfinish
    · exact ha.2.2 req refusal hreq htype d hd hkey.symm
  | @leave j d hleave hd hdopen =>
    refine (h.holds_leave hd hdopen).mpr ⟨he, fun hhit => ?_⟩
    obtain rfl := (h.mem_connSubs hd hdopen he).mp hhit
    exact ha.1 hleave

/-- CLOSE leaves the key in no map. -/
theorem Sound.free_close (h : Sound m s) {req : RequestMessage} {refusal : Option Refusal}
    (hc : s.conns[i]? = some c) (hopen : c.isOpen = true) (htype : req.type = "CLOSE") :
    (s.message m i req refusal).Free i (c.key req) := by
  have hstep : s.message m i req refusal = s.close i c (c.key req) := by
    rw [State.message, hc]
    simp [hopen, htype]
  rw [hstep, State.close]
  cases hlook : c.connSubs.lookup (c.key req) with
  | some n =>
    refine ⟨⟨{ c with connSubs := erase c.connSubs (c.key req) }, ?_, hopen, names_key c req⟩, lookup_erase_self⟩
    exact (getElem?_set hc).trans (if_pos rfl)
  | none =>
    refine ⟨⟨c, hc, hopen, names_key c req⟩, ?_⟩
    by_contra hsome
    obtain ⟨n, hn⟩ := Option.ne_none_iff_exists'.mp hsome
    obtain ⟨j, d, hd, hdopen, hmem⟩ := h.lookup_iff.mp hn
    have hname := ((h.own j d hd hdopen).2 _ hmem).wsID (names_key c req)
    obtain rfl := h.names j i d c hd hc hdopen hopen hname
    rw [hc] at hd
    obtain rfl := Option.some.inj hd
    exact lookup_eq_none.mp hlook (List.mem_map_of_mem hmem)

/-- A REQUEST of a free key within the limits starts a watch. -/
theorem Sound.request_starts (h : Sound m s) {req : RequestMessage} (hfree : s.Free i key)
    (hc : s.conns[i]? = some c) (hkey : c.key req = key) (htype : req.type = "REQUEST")
    (hconn : c.connSubs.length < m.maxPerConn) (htotal : s.subs.length < m.maxTotal) :
    (s.message m i req none).Holds i (key, s.watches.length) ∧
      (s.message m i req none).watches[s.watches.length]? = some ⟨i, key, false⟩ := by
  obtain ⟨⟨c', hc', hopen, hname⟩, hnone⟩ := hfree
  rw [hc] at hc'
  obtain rfl := Option.some.inj hc'
  have hstep : s.message m i req none = s.take i c key := by
    rw [State.message, hc]
    simp [hopen, htype, State.request, hkey, hnone, hconn, htotal]
  rw [hstep]
  refine ⟨(holds_take hc hopen (h.lookup_own hc hopen hnone)).mpr (.inr ⟨rfl, rfl⟩), ?_⟩
  exact List.getElem?_concat_length

/-- After a CLOSE, however long after, the next REQUEST of the key within the limits starts a new watch,
and only its own end, a CLOSE of the key or the connection's end takes it out. -/
def StartsAgain (m : Limits) (s : State) : Prop :=
  ∀ (i : ℕ) (c d : Conn) (close req : RequestMessage) (refusal : Option Refusal) (as bs : List Step) (t : State),
    s.conns[i]? = some c → c.isOpen = true → close.type = "CLOSE" →
    Along (WatchServer.step m) (Quiet i (c.key close)) (s.message m i close refusal) as →
    t = exec (WatchServer.step m) (s.message m i close refusal) as →
    t.conns[i]? = some d → d.key req = c.key close → req.type = "REQUEST" →
    d.connSubs.length < m.maxPerConn → t.subs.length < m.maxTotal →
    Along (WatchServer.step m) (Spares i (c.key close) t.watches.length) (t.message m i req none) bs →
    (t.message m i req none).watches[t.watches.length]? = some ⟨i, c.key close, false⟩ ∧
      (c.key close, t.watches.length) ∈ (exec (WatchServer.step m) (t.message m i req none) bs).subs

theorem Sound.startsAgain (h : Sound m s) : StartsAgain m s := by
  intro i c d close req refusal as bs t hc hopen hclose hquiet ht hd hkey hreq hconn htotal hspares
  have hfree : Sound m t ∧ t.Free i (c.key close) := by
    rw [ht]
    exact exec_invariant (I := fun s => Sound m s ∧ s.Free i (c.key close))
      (fun s a hs ha => ⟨hs.1.step a, hs.1.free_step ha hs.2⟩)
      ⟨h.message i close refusal, h.free_close hc hopen hclose⟩ hquiet
  obtain ⟨hholds, hwatch⟩ := hfree.1.request_starts hfree.2 hd hkey hreq hconn htotal
  have hheld := exec_invariant (I := fun s => Sound m s ∧ s.Holds i (c.key close, t.watches.length))
    (fun s a hs ha => ⟨hs.1.step a, hs.1.holds_step ha hs.2⟩) ⟨hfree.1.message i req none, hholds⟩ hspares
  exact ⟨hwatch, (hheld.1.union _).mpr ⟨i, hheld.2⟩⟩

end Changes

section Since

/-- A connection is open from its handshake to its disconnection. -/
theorem Sound.open_run (h : Sound m s) (as : List Step) (hc : s.conns[i]? = some c) :
    ∃ d, (exec (WatchServer.step m) s as).conns[i]? = some d ∧ d.wsID = c.wsID ∧ d.cluster = c.cluster ∧
      (d.isOpen = true ↔ c.isOpen = true ∧ Step.disconnect i ∉ as) := by
  induction as generalizing s c with
  | nil => exact ⟨c, hc, rfl, rfl, by simp⟩
  | cons a as ih =>
    obtain ⟨d, hd, hname, hcluster, hopen⟩ := (h.change a).conn hc
    obtain ⟨d', hd', hname', hcluster', hopen'⟩ := ih (h.step a) hd
    refine ⟨d', hd', hname'.trans hname, hcluster'.trans hcluster, hopen'.trans ?_⟩
    by_cases ha : a = .disconnect i
    · -- The cleanup of an open connection closes it.
      have hclosed : d.isOpen = false := by
        rcases hopen with hsame | ⟨-, hclosed⟩
        · by_contra hstill
          subst ha
          have hcopen : c.isOpen = true := by simpa [hsame] using hstill
          have hleave : WatchServer.step m s (.disconnect i) = s.leave i c := by
            simp [WatchServer.step, State.disconnect, hc, hcopen]
          rw [hleave] at hd
          have hd0 : (s.leave i c).conns[i]? = some { c with isOpen := false } :=
            (getElem?_set hc).trans (if_pos rfl)
          obtain rfl := Option.some.inj (hd.symm.trans hd0)
          exact hstill rfl
        · exact hclosed
      simp [hclosed, ha]
    · have hsame : d.isOpen = c.isOpen := hopen.resolve_right fun hleave => ha hleave.1
      simp [hsame, Ne.symm ha]

/-- What CLOSE, the end of the watch and the disconnection do: the entry is gone. -/
theorem Sound.lost (h : Sound m s) {a : Step} (ha : ¬Spares i key n s a) (he : s.Holds i (key, n)) :
    (key, n) ∉ (WatchServer.step m s a).subs := by
  obtain ⟨c, hc, hopen, hmem⟩ := id he
  unfold Spares at ha
  push Not at ha
  by_cases hleave : a = .disconnect i
  · subst hleave
    have hstep : WatchServer.step m s (.disconnect i) = s.leave i c := by
      simp [WatchServer.step, State.disconnect, hc, hopen]
    rw [hstep]
    show (key, n) ∉ c.connSubs.foldl _ s.subs
    rw [mem_foldl_erase]
    exact fun hstill => hstill.2 _ hmem rfl
  by_cases hfinish : a = .finish n
  · subst hfinish
    obtain ⟨w, hw, -, hkey, -⟩ := h.known i _ he
    have hlook : s.subs.lookup w.key = some n := by
      rw [hkey]
      exact h.lookup_iff.mpr ⟨i, he⟩
    simp only [WatchServer.step, State.forgetSubscription, hw, if_pos hlook, mem_erase]
    exact fun hstill => hstill.2 hkey.symm
  · obtain ⟨req, refusal, rfl, htype, d, hd, rfl⟩ := ha hleave hfinish
    obtain rfl := Option.some.inj (hc.symm.trans hd)
    have hlook : c.connSubs.lookup (c.key req) = some n := (mem_iff_lookup (h.own i c hc hopen).1).mp hmem
    have hstep : WatchServer.step m s (.message i req refusal) = s.drop i c (c.key req) n := by
      simp [WatchServer.step, State.message, hc, hopen, htype, State.close, hlook]
    rw [hstep]
    show (c.key req, n) ∉ erase s.subs (c.key req)
    simp [mem_erase]

theorem length_place {l l' : List Watch} (h : l'.map Watch.place = l.map Watch.place) : l'.length = l.length := by
  simpa using congrArg List.length h

theorem Sound.watches_step (h : Sound m s) (a : Step) :
    s.watches.length ≤ (WatchServer.step m s a).watches.length := by
  generalize hs' : WatchServer.step m s a = s'
  have hchange : Change s a s' := hs' ▸ h.change a
  cases hchange with
  | idle _ _ hplaces => exact (length_place hplaces).ge
  | take => simp [State.take]
  | drop => simp [State.drop]
  | @leave j d => exact (length_place (places_leave d.connSubs s.watches)).ge

/-- An entry that is gone stays gone: a new watch has a new pointer. -/
theorem Sound.gone_step (h : Sound m s) (a : Step) (hn : n < s.watches.length) (hgone : (key, n) ∉ s.subs) :
    (key, n) ∉ (WatchServer.step m s a).subs := by
  generalize hs' : WatchServer.step m s a = s'
  have hchange : Change s a s' := hs' ▸ h.change a
  cases hchange with
  | idle hsubs _ _ => exact hsubs ▸ hgone
  | @take j d req refusal hreq hd hdopen htype hdfree =>
    show (key, n) ∉ put s.subs (d.key req) s.watches.length
    rw [put_of_none hdfree, List.mem_append, List.mem_singleton]
    rintro (hold | hnew)
    · exact hgone hold
    · exact hn.ne (Prod.mk.inj hnew).2
  | drop hd he hcause => exact fun hstill => hgone (mem_erase.mp hstill).1
  | leave hleave hd hdopen => exact fun hstill => hgone ((foldl_erase_sublist _ _).subset hstill)

/-- An entry is in the map as long as none of the three has come. -/
theorem Sound.held_run (h : Sound m s) (he : s.Holds i (key, n)) (as : List Step) :
    (key, n) ∈ (exec (WatchServer.step m) s as).subs ↔ Along (WatchServer.step m) (Spares i key n) s as := by
  induction as generalizing s with
  | nil => exact ⟨fun _ => trivial, fun _ => (h.union _).mpr ⟨i, he⟩⟩
  | cons a as ih =>
    rw [exec_cons, along_cons]
    by_cases ha : Spares i key n s a
    · rw [and_iff_right ha]
      exact ih (h.step a) (h.holds_step ha he)
    · obtain ⟨w, hw, -⟩ := h.known i _ he
      have hn := (List.getElem?_eq_some_iff.mp hw).1.trans_le (h.watches_step a)
      have halong : Along (WatchServer.step m) (fun _ _ => True) (WatchServer.step m s a) as :=
        Along.of_forall fun _ _ => trivial
      have hgone := exec_invariant
        (I := fun s => Sound m s ∧ n < s.watches.length ∧ (key, n) ∉ s.subs) (G := fun _ _ => True)
        (fun s b hs _ => ⟨hs.1.step b, hs.2.1.trans_le (hs.1.watches_step b), hs.1.gone_step b hs.2.1 hs.2.2⟩)
        ⟨h.step a, hn, h.lost ha he⟩ halong
      exact iff_of_false hgone.2.2 fun hspares => ha hspares.1

/-- A watch was started by a REQUEST of its key on its connection, and its entry is in the map as long as no
CLOSE of the key there, no end of the watch and no disconnection has come since. -/
def Started (m : Limits) (as : List Step) (n : ℕ) (w : Watch) : Prop :=
  ∃ (bs cs : List Step) (req : RequestMessage) (refusal : Option Refusal) (c : Conn),
    as = bs ++ .message w.conn req refusal :: cs ∧ req.type = "REQUEST" ∧
    (exec (WatchServer.step m) .init bs).conns[w.conn]? = some c ∧ c.key req = w.key ∧
    (exec (WatchServer.step m) .init bs).watches.length = n ∧
    ((w.key, n) ∈ (exec (WatchServer.step m) .init as).subs ↔ Along (WatchServer.step m) (Spares w.conn w.key n)
      (exec (WatchServer.step m) .init (bs ++ [.message w.conn req refusal])) cs)

theorem started (m : Limits) (as : List Step) (hw : (exec (WatchServer.step m) .init as).watches[n]? = some w) :
    ∃ (bs cs : List Step) (req : RequestMessage) (refusal : Option Refusal) (c : Conn),
      as = bs ++ .message w.conn req refusal :: cs ∧ req.type = "REQUEST" ∧
      (exec (WatchServer.step m) .init bs).conns[w.conn]? = some c ∧ c.key req = w.key ∧
      (exec (WatchServer.step m) .init bs).watches.length = n ∧
      (exec (WatchServer.step m) .init (bs ++ [.message w.conn req refusal])).Holds w.conn (w.key, n) := by
  induction as using List.reverseRecOn generalizing w with
  | nil => cases hw
  | append_singleton as a ih =>
    have h := sound_run m as
    have hstep : exec (WatchServer.step m) .init (as ++ [a]) =
        WatchServer.step m (exec (WatchServer.step m) .init as) a := by simp
    rw [hstep] at hw
    generalize hs' : WatchServer.step m (exec (WatchServer.step m) .init as) a = s' at *
    have hchange : Change (exec (WatchServer.step m) .init as) a s' := hs' ▸ h.change a
    have hcases : (∃ w', w'.place = w.place ∧ (exec (WatchServer.step m) .init as).watches[n]? = some w') ∨
        ∃ (d : Conn) (req : RequestMessage) (refusal : Option Refusal), a = .message w.conn req refusal ∧
          req.type = "REQUEST" ∧ (exec (WatchServer.step m) .init as).conns[w.conn]? = some d ∧
          d.key req = w.key ∧ n = (exec (WatchServer.step m) .init as).watches.length ∧
          s'.Holds w.conn (w.key, n) := by
      have hsame (hplaces : s'.watches.map Watch.place =
          (exec (WatchServer.step m) .init as).watches.map Watch.place) :
          ∃ w', w'.place = w.place ∧ (exec (WatchServer.step m) .init as).watches[n]? = some w' := by
        have hn := congrArg (·[n]?) hplaces
        simp only [List.getElem?_map, hw, Option.map_some] at hn
        obtain ⟨w', hw', hplace⟩ := Option.map_eq_some_iff.mp hn.symm
        exact ⟨w', hplace, hw'⟩
      cases hchange with
      | idle _ _ hplaces => exact .inl (hsame hplaces)
      | drop => exact .inl (hsame (places_cancel _ _))
      | @leave j d => exact .inl (hsame (places_leave d.connSubs _))
      | @take j d req refusal hreq hd hdopen htype hdfree =>
        have hwatch : ((exec (WatchServer.step m) .init as).watches ++ [⟨j, d.key req, false⟩])[n]? = some w := hw
        rw [List.getElem?_append] at hwatch
        split_ifs at hwatch with hn
        · exact .inl ⟨w, rfl, hwatch⟩
        · obtain ⟨hlt, rfl⟩ := List.getElem?_eq_some_iff.mp hwatch
          rw [List.length_singleton, Nat.lt_one_iff] at hlt
          obtain rfl : n = (exec (WatchServer.step m) .init as).watches.length := by omega
          refine .inr ⟨d, req, refusal, by simpa using hreq, htype, by simpa using hd, by simp, rfl, ?_⟩
          simpa using (holds_take hd hdopen (h.lookup_own hd hdopen hdfree)).mpr (.inr ⟨rfl, rfl⟩)
    rcases hcases with ⟨w', hplace, hw'⟩ | ⟨d, req, refusal, rfl, htype, hd, hkey, hn, hholds⟩
    · obtain ⟨bs, cs, req, refusal, c, has, hrest⟩ := ih hw'
      obtain ⟨hconn, hwkey⟩ : w'.conn = w.conn ∧ w'.key = w.key := Prod.mk.inj hplace
      rw [hconn, hwkey] at hrest
      rw [hconn] at has
      exact ⟨bs, cs ++ [a], req, refusal, c, by simp [has], hrest⟩
    · refine ⟨as, [], req, refusal, d, rfl, htype, hd, hkey, hn.symm, ?_⟩
      rw [hstep]
      exact hholds

end Since

section Places

/-- The connections whose cleanup has not run. -/
def State.open (s : State) : List Conn := s.conns.filter Conn.isOpen

theorem mem_open : c ∈ s.open ↔ ∃ i : ℕ, s.conns[i]? = some c ∧ c.isOpen = true := by
  rw [State.open, List.mem_filter, List.mem_iff_getElem?, exists_and_right]

/-- The maps of two open connections have no entry in common. -/
theorem Sound.disjoint (h : Sound m s) :
    s.open.Pairwise fun c d => List.Disjoint c.connSubs d.connSubs := by
  rw [State.open, List.pairwise_filter, List.pairwise_iff_getElem]
  intro i j hi hj hij hopen hopen' e he he'
  have hc : s.Holds i e := ⟨_, List.getElem?_eq_getElem hi, hopen, he⟩
  have hd : s.Holds j e := ⟨_, List.getElem?_eq_getElem hj, hopen', he'⟩
  exact hij.ne (h.holds_unique hc hd rfl).1

/-- The map of all watches is the disjoint union of the open connections' maps. -/
theorem Sound.perm (h : Sound m s) : s.subs.Perm (s.open.flatMap Conn.connSubs) := by
  refine (List.perm_ext_iff_of_nodup h.keys.of_map ?_).mpr fun e => ?_
  · refine List.nodup_flatMap.mpr ⟨fun c hc => ?_, h.disjoint⟩
    obtain ⟨i, hc, hopen⟩ := mem_open.mp hc
    exact (h.own i c hc hopen).1.of_map
  · rw [h.union, List.mem_flatMap]
    constructor
    · rintro ⟨i, c, hc, hopen, he⟩
      exact ⟨c, mem_open.mpr ⟨i, hc, hopen⟩, he⟩
    · rintro ⟨c, hc, he⟩
      obtain ⟨i, hc, hopen⟩ := mem_open.mp hc
      exact ⟨i, c, hc, hopen, he⟩

theorem Sound.live_iff (h : Sound m s) (hw : s.watches[n]? = some w) : (w.key, n) ∈ s.subs ↔ w.cancelled = false := by
  rw [h.union]
  constructor
  · rintro ⟨i, he⟩
    obtain ⟨w', hw', -, -, hlive⟩ := h.known i _ he
    rw [hw] at hw'
    obtain rfl := Option.some.inj hw'
    exact hlive
  · exact fun hlive => ⟨_, h.live n w hw hlive⟩

/-- What the two maps and the watches are to each other after a run. A connection is open from its handshake
to its disconnection. -/
structure Placed (m : Limits) (as : List Step) (s : State) : Prop where
  keys : (s.subs.map Prod.fst).Nodup
  union : s.subs.Perm (s.open.flatMap Conn.connSubs)
  perConn : ∀ c ∈ s.open, c.connSubs.length ≤ m.maxPerConn
  total : (s.open.map fun c => c.connSubs.length).sum ≤ m.maxTotal
  known : ∀ e ∈ s.subs, ∃ w : Watch, s.watches[e.2]? = some w ∧ w.key = e.1
  live : ∀ (n : ℕ) (w : Watch), s.watches[n]? = some w → ((w.key, n) ∈ s.subs ↔ w.cancelled = false)
  started : ∀ (n : ℕ) (w : Watch), s.watches[n]? = some w → Started m as n w
  opened : ∀ (bs cs : List Step) (wsID : Name) (cluster : Option String), as = bs ++ .connect wsID cluster :: cs →
    (∀ c ∈ (exec (WatchServer.step m) .init bs).open, c.wsID ≠ wsID) →
      ∃ c, s.conns[(exec (WatchServer.step m) .init bs).conns.length]? = some c ∧ c.wsID = wsID ∧
        c.cluster = cluster ∧
        (c.isOpen = true ↔ Step.disconnect (exec (WatchServer.step m) .init bs).conns.length ∉ cs)
  again : StartsAgain m s

theorem opened_run (m : Limits) (bs cs : List Step) (wsID : Name) (cluster : Option String)
    (hfree : ∀ c ∈ (exec (WatchServer.step m) .init bs).open, c.wsID ≠ wsID) :
    ∃ c, (exec (WatchServer.step m) .init (bs ++ .connect wsID cluster :: cs)).conns[(exec (WatchServer.step m)
        .init bs).conns.length]? = some c ∧ c.wsID = wsID ∧ c.cluster = cluster ∧
      (c.isOpen = true ↔ Step.disconnect (exec (WatchServer.step m) .init bs).conns.length ∉ cs) := by
  have h := sound_run m bs
  rw [exec_append, exec_cons]
  generalize exec (WatchServer.step m) .init bs = s at *
  have hconns : (WatchServer.step m s (.connect wsID cluster)).conns = s.conns ++ [⟨wsID, cluster, true, []⟩] := by
    rw [WatchServer.step, State.connect, if_neg]
    rintro hused
    obtain ⟨c, hc, hsame⟩ := List.any_eq_true.mp hused
    rw [Bool.and_eq_true, decide_eq_true_eq] at hsame
    exact hfree c (List.mem_filter.mpr ⟨hc, hsame.1⟩) hsame.2
  have hnew : (WatchServer.step m s (.connect wsID cluster)).conns[s.conns.length]? =
      some ⟨wsID, cluster, true, []⟩ := by
    rw [hconns]
    exact List.getElem?_concat_length
  obtain ⟨c, hc, hname, hcluster, hopen⟩ := (h.step (.connect wsID cluster)).open_run cs hnew
  exact ⟨c, hc, hname, hcluster, hopen.trans (and_iff_right rfl)⟩

theorem started_run (m : Limits) (as : List Step) (hw : (exec (WatchServer.step m) .init as).watches[n]? = some w) :
    Started m as n w := by
  obtain ⟨bs, cs, req, refusal, c, rfl, htype, hc, hkey, hn, hholds⟩ := started m as hw
  refine ⟨bs, cs, req, refusal, c, rfl, htype, hc, hkey, hn, ?_⟩
  have hrun := (sound_run m (bs ++ [.message w.conn req refusal])).held_run hholds cs
  rwa [← exec_append, List.append_assoc, List.singleton_append] at hrun

/-- In every run watch places are neither leaked nor taken twice. -/
theorem placed_run (m : Limits) (as : List Step) : Placed m as (exec (WatchServer.step m) .init as) := by
  have h := sound_run m as
  refine ⟨h.keys, h.perm, fun c hc => ?_, ?_, fun e he => ?_, fun n w hw => h.live_iff hw,
    fun n w hw => started_run m as hw, ?_, h.startsAgain⟩
  · obtain ⟨i, hc, hopen⟩ := mem_open.mp hc
    exact h.perConn i c hc hopen
  · have hlength := h.perm.length_eq
    rw [List.length_flatMap] at hlength
    exact hlength ▸ h.total
  · obtain ⟨i, hi⟩ := (h.union e).mp he
    obtain ⟨w, hw, -, hkey, -⟩ := h.known i e hi
    exact ⟨w, hw, hkey⟩
  · rintro bs cs wsID cluster rfl hfree
    exact opened_run m bs cs wsID cluster hfree

end Places

end Kubeast.WatchServer
