import Kubeast.WatchList.Client

/-! Once everything has arrived a list shows the cluster's objects: in every run whose list answers
are not overtaken by an event and whose new sockets find no row of an object that has gone. -/
namespace Kubeast.WatchList
open Transition

variable {s : State} {kind : Applies} {o : Obj} {k : String × String} {f : Frame} {wire : List Frame}
  {items : List Obj} {type : EventType} {a : Step}

/-- The step that fills the list last leaves no row behind the cluster: a list's answer is as the
cluster is now wherever no frame is on its way, and a new socket's watch starts with no row of an
object that has gone. -/
def KeepsUp (s : State) : Step → Prop
  | .answer i => ∀ items, s.lists[i]? = some (some items) → s.watch = .on → s.lists.eraseIdx i = [] →
      .resync ∉ s.wire → ∀ k, lastAbout k s.wire = none → lookup items k = s.objects.get k
  | .watch _ => s.watch = .requested → s.lists = [] → ∀ rows, s.rows = some rows →
      ∀ o ∈ rows, s.objects.get o.key ≠ none
  | _ => True

structure Sound (s : State) : Prop where
  loading : s.rows = none → s.lists ≠ []
  asked : s.watch = .requested → s.wire = []
  closed : s.socket = false → s.watch = .requested
  shown : ∀ rows, s.rows = some rows → (rows.map Obj.key).Nodup
  answers : ∀ items, some items ∈ s.lists → (items.map Obj.key).Nodup
  current : s.watch = .on → Current s.objects (sinceResync s.wire)
  known : s.watch = .on → s.lists = [] → .resync ∉ s.wire → ∀ rows, s.rows = some rows →
    ∀ k, lastAbout k s.wire = none → lookup rows k = s.objects.get k

section Steps

theorem get_write (objects : Table Obj.key) (o : Obj) :
    (write objects o).get k = if o.key = k then some o else objects.get k := by
  split
  · next hk =>
    have hself : ((objects.get o.key).map fun x => if x.key = o.key then o else x).getD o = o := by
      cases hget : objects.get o.key with
      | none => rfl
      | some x => simp [(Table.key_of_get hget : x.key = o.key)]
    rw [← hk, write, Table.get_upsert_self, hself]
  · next hk => exact Table.get_upsert_ne _ hk

/-- A watch that is on sends what changes; another is told of it otherwise. -/
theorem Sound.change (h : Sound s) {version : ℕ} {objects : Table Obj.key}
    (hget : ∀ k, objects.get k = if o.key = k then outcome type o else s.objects.get k) :
    Sound ({ s with version := version, objects := objects }.send (.data type o)) := by
  unfold State.send
  split
  · next hon =>
    obtain ⟨-, hwatch⟩ := hon
    refine ⟨h.loading, fun hasked => ?_, h.closed, h.shown, h.answers, fun _ => ?_, ?_⟩
    · exact absurd (hwatch.symm.trans hasked) (by decide)
    · exact (h.current hwatch).snoc hget
    · intro _ hlists hresync rows hrows k hk
      have hresync' : .resync ∉ s.wire := fun hmem => hresync (List.mem_append_left _ hmem)
      rw [lastAbout_snoc, Option.or_eq_none_iff, Frame.about] at hk
      obtain ⟨hkey, hk⟩ := hk
      have hne : o.key ≠ k := by
        intro heq
        rw [if_pos heq] at hkey
        cases hkey
      rw [h.known hwatch hlists hresync' rows hrows k hk, hget, if_neg hne]
  · next hoff =>
    have hoff' : s.watch ≠ .on := by
      intro hwatch
      refine hoff ⟨?_, hwatch⟩
      cases hsocket : s.socket with
      | true => rfl
      | false => exact absurd (hwatch.symm.trans (h.closed hsocket)) (by decide)
    exact ⟨h.loading, h.asked, h.closed, h.shown, h.answers, fun hwatch => absurd hwatch hoff',
      fun hwatch => absurd hwatch hoff'⟩

theorem Sound.put (h : Sound s) (o : Obj) : Sound (s.put o) := by
  have htype : (if s.objects.get o.key = none then EventType.added else .modified) ≠ .deleted := by
    split <;> decide
  refine h.change fun k => ?_
  rw [get_write, outcome, if_neg htype]

theorem Sound.remove (h : Sound s) (key : String × String) : Sound (s.remove key) := by
  unfold State.remove
  split
  · exact h
  · next o hget =>
    have hkey : o.key = key := Table.key_of_get hget
    refine h.change fun k => ?_
    rw [Table.get_delete, outcome, if_pos rfl, hkey]
    cases hk : s.objects.get k with
    | none => simp
    | some x =>
      have hx : x.key = k := Table.key_of_get hk
      by_cases hkk : key = k
      · simp [hx, hkk]
      · simp [Option.filter, hx, hkk, Ne.symm hkk]

/-- A list request more. -/
theorem Sound.list (h : Sound s) : Sound { s with lists := s.lists ++ [none] } := by
  refine ⟨fun _ => by simp, h.asked, h.closed, h.shown, fun items hitems => ?_, h.current, ?_⟩
  · exact h.answers items (by simpa using hitems)
  · intro _ hlists
    simp at hlists

theorem Sound.read (h : Sound s) {i : ℕ} (hi : s.lists[i]? = some none) :
    Sound { s with lists := s.lists.set i (some s.objects.rows) } := by
  have hlt : i < s.lists.length := (List.getElem?_eq_some_iff.mp hi).1
  have hne : s.lists.set i (some s.objects.rows) ≠ [] := by
    rw [← List.length_pos_iff_ne_nil, List.length_set]
    omega
  refine ⟨fun _ => hne, h.asked, h.closed, h.shown, fun items hitems => ?_, h.current, ?_⟩
  · rcases List.mem_or_eq_of_mem_set hitems with hitems | hitems
    · exact h.answers items hitems
    · exact Option.some.inj hitems ▸ s.objects.nodup
  · exact fun _ hlists => absurd hlists hne

theorem Sound.answer (h : Sound s) {i : ℕ} (hi : s.lists[i]? = some (some items))
    (hguard : KeepsUp s (.answer i)) :
    Sound { s with rows := some items, lists := s.lists.eraseIdx i } := by
  have hitems := h.answers items (List.mem_of_getElem? hi)
  refine ⟨?_, h.asked, h.closed, ?_, fun l hl => ?_, h.current, ?_⟩
  · rintro ⟨⟩
  · rintro _ ⟨⟩
    exact hitems
  · exact h.answers l (List.mem_of_mem_eraseIdx hl)
  · rintro hwatch hlists hresync _ ⟨⟩
    exact hguard items hi hwatch hlists hresync

theorem Sound.startWatch (h : Sound s) {order : List Obj} (hguard : KeepsUp s (.watch order)) :
    Sound (s.startWatch order) := by
  unfold State.startWatch
  split
  · next hopen =>
    obtain ⟨hsocket, horder⟩ := hopen
    have horder' : order.Perm s.objects.rows := List.isPerm_iff.mp horder
    have hadded := Current.added horder'
    have hresync := resync_notMem_added order
    have hclosed : s.socket = false → Watch.on = .requested := by simp [hsocket]
    split
    · next hwatch =>
      have hwire : s.wire = [] := h.asked hwatch
      refine ⟨h.loading, nofun, hclosed, h.shown, h.answers, fun _ => ?_, ?_⟩
      · rwa [hwire, List.nil_append, sinceResync_of_notMem hresync]
      · intro _ hlists _ rows hrows k hk
        have hnodup : (order.map Obj.key).Nodup := (horder'.map Obj.key).nodup_iff.mpr s.objects.nodup
        rw [hwire, List.nil_append, lastAbout_added hnodup, Option.map_eq_none_iff] at hk
        have hgone : s.objects.get k = none := by
          refine Table.get_eq_none.mpr fun o ho hkey => ?_
          have hfound := (lookup_eq_some hnodup).mpr ⟨horder'.mem_iff.mpr ho, hkey⟩
          rw [hk] at hfound
          cases hfound
        rw [hgone]
        refine lookup_eq_none_of_notMem fun hmem => ?_
        obtain ⟨o, ho, hkey⟩ := List.mem_map.mp hmem
        exact hguard hwatch hlists rows hrows o ho (hkey ▸ hgone)
    · next hwatch =>
      refine ⟨h.loading, nofun, hclosed, h.shown, h.answers, fun _ => ?_, fun _ _ hnone => ?_⟩
      · rwa [sinceResync_append_resync hresync]
      · exact absurd (by simp) hnone
    · exact h
  · exact h

theorem Sound.lapse (h : Sound s) (hwatch : s.watch = .on) : Sound { s with watch := .lapsed } := by
  refine ⟨h.loading, nofun, fun hsocket => ?_, h.shown, h.answers, nofun, nofun⟩
  exact absurd (hwatch.symm.trans (h.closed hsocket)) (by decide)

theorem Sound.resync (h : Sound s) : Sound (s.send .resync) := by
  unfold State.send
  split
  · next hon =>
    refine ⟨h.loading, fun hasked => ?_, h.closed, h.shown, h.answers, fun _ => ?_, fun _ _ hnone => ?_⟩
    · exact absurd (hon.2.symm.trans hasked) (by decide)
    · rw [sinceResync_append_resync List.not_mem_nil]
      rintro k r ⟨⟩
    · exact absurd (by simp) hnone
  · exact h

theorem Sound.deliver (h : Sound s) (hwire : s.wire = f :: wire) :
    Sound ({ s with wire := wire }.receive kind f) := by
  have hasked : s.watch = .requested → wire = [] := by
    intro hwatch
    rw [h.asked hwatch] at hwire
    cases hwire
  have hcurrent : s.watch = .on → Current s.objects (sinceResync wire) :=
    fun hwatch => Current.tail (hwire ▸ h.current hwatch)
  cases f with
  | resync =>
    have hreceived : Sound { s with wire := wire, lists := s.lists ++ [none] } := by
      refine ⟨fun _ => by simp, hasked, h.closed, h.shown, fun l hl => ?_, hcurrent, fun _ hlists => ?_⟩
      · exact h.answers l (by simpa using hl)
      · simp at hlists
    exact hreceived
  | data type o =>
    have hreceived : Sound { s with
        wire := wire, rows := s.rows.map fun prev => kind.apply prev type o } := by
      refine ⟨fun hrows => ?_, hasked, h.closed, fun rows hrows => ?_, h.answers, hcurrent, ?_⟩
      · exact h.loading (Option.map_eq_none_iff.mp hrows)
      · obtain ⟨prev, hprev, rfl⟩ := Option.map_eq_some_iff.mp hrows
        exact nodup_apply (h.shown prev hprev)
      · intro hwatch hlists hresync rows hrows k hk
        obtain ⟨prev, hprev, rfl⟩ := Option.map_eq_some_iff.mp hrows
        have hresync' : .resync ∉ s.wire := by
          rw [hwire]
          simpa using hresync
        have hlast : lastAbout k s.wire = if o.key = k then some (outcome type o) else none := by
          rw [hwire, lastAbout, hk, Option.none_or, Frame.about]
        rw [lookup_apply (h.shown prev hprev)]
        split
        · next hkey =>
          rw [if_pos hkey] at hlast
          refine h.current hwatch k _ ?_
          rwa [sinceResync_of_notMem hresync']
        · next hkey =>
          rw [if_neg hkey] at hlast
          exact h.known hwatch hlists hresync' prev hprev k hlast
    exact hreceived

theorem Sound.step (h : Sound s) (hguard : KeepsUp s a) : Sound (step kind s a) := by
  cases a with
  | put o => exact h.put o
  | remove key => exact h.remove key
  | list => exact h.list
  | read i =>
    simp only [WatchList.step]
    split
    · next hi => exact h.read hi
    · exact h
  | answer i =>
    simp only [WatchList.step]
    split
    · next hi => exact h.answer hi hguard
    · exact h
  | watch order => exact h.startWatch hguard
  | lapse =>
    simp only [WatchList.step]
    split
    · next hwatch => exact h.lapse hwatch
    · exact h
  | resync => exact h.resync
  | deliver =>
    simp only [WatchList.step]
    split
    · exact h
    · next hwire => exact h.deliver hwire
  | close =>
    refine ⟨h.loading, fun _ => rfl, fun _ => rfl, h.shown, h.answers, fun hon => ?_, fun hon => ?_⟩ <;> cases hon
  | reopen =>
    exact ⟨h.loading, h.asked, fun hclosed => (by cases hclosed), h.shown, h.answers, h.current, h.known⟩

theorem sound_start (version : ℕ) (objects : Table Obj.key) : Sound (State.start version objects) := by
  refine ⟨fun _ => by simp [State.start], fun _ => rfl, nofun, nofun, ?_, nofun, nofun⟩
  intro items hitems
  simp [State.start] at hitems

theorem Sound.shows (h : Sound s) (hsettled : s.Settled) : s.Shows := by
  obtain ⟨-, hwatch, hwire, hlists⟩ := hsettled
  cases hrows : s.rows with
  | none => exact absurd hlists (h.loading hrows)
  | some rows =>
    have hnodup := h.shown rows hrows
    have hresync : .resync ∉ s.wire := by simp [hwire]
    refine ⟨rows, hrows, hnodup, fun o => ?_⟩
    have hknown : lookup rows o.key = s.objects.get o.key := by
      refine h.known hwatch hlists hresync rows hrows o.key ?_
      rw [hwire, lastAbout]
    calc o ∈ rows ↔ lookup rows o.key = some o := by simp [lookup_eq_some hnodup]
      _ ↔ o ∈ s.objects.rows := by simp [hknown, Table.get_eq_some]

end Steps

/-- A list whose answers and new sockets keep up shows the cluster's objects. -/
theorem list_shows_cluster (kind : Applies) (version : ℕ) (objects : Table Obj.key) (as : List Step)
    (h : Along (step kind) KeepsUp (State.start version objects) as)
    (hsettled : (exec (step kind) (State.start version objects) as).Settled) :
    (exec (step kind) (State.start version objects) as).Shows :=
  (exec_invariant (fun _ _ => Sound.step) (sound_start version objects) h).shows hsettled

def web : Obj := ⟨"default", "web", 1, by decide, by decide, by decide⟩

def onePod : Table Obj.key := ⟨[web], by simp⟩

/-- The list is read, the watch says what it read, and the pod goes away. -/
theorem list_shows_cluster_one_pod : (exec (step .rowEvent) (State.start 1 onePod)
    [.read 0, .answer 0, .watch [web], .deliver, .remove web.key, .deliver]).Shows := by
  apply list_shows_cluster
  · refine ⟨trivial, ?_, ?_, trivial, trivial, trivial, trivial⟩
    · rintro _ ⟨⟩ ⟨⟩
    · rintro - - _ ⟨⟩ o ho
      rw [List.mem_singleton.mp ho]
      decide
  · exact ⟨rfl, rfl, rfl, rfl⟩

/-- A pod that goes away while the socket is closed stays on the list, and so does one whose deletion
arrives before the list that was read earlier. -/
theorem deleted_pod_stays :
    ((exec (step .rowEvent) (State.start 1 onePod) [.read 0, .answer 0, .watch [web], .deliver, .close,
        .remove web.key, .reopen, .watch []]).Settled ∧
      ¬(exec (step .rowEvent) (State.start 1 onePod) [.read 0, .answer 0, .watch [web], .deliver, .close,
        .remove web.key, .reopen, .watch []]).Shows) ∧
    (exec (step .rowEvent) (State.start 1 onePod) [.watch [web], .read 0, .remove web.key, .deliver,
        .deliver, .answer 0]).Settled ∧
      ¬(exec (step .rowEvent) (State.start 1 onePod) [.watch [web], .read 0, .remove web.key, .deliver,
        .deliver, .answer 0]).Shows := by
  refine ⟨⟨⟨rfl, rfl, rfl, rfl⟩, ?_⟩, ⟨rfl, rfl, rfl, rfl⟩, ?_⟩
  · rintro ⟨rows, hrows, -, hshows⟩
    obtain rfl : [web] = rows := Option.some.inj hrows
    exact absurd ((hshows web).mp List.mem_cons_self) (by decide)
  · rintro ⟨rows, hrows, -, hshows⟩
    obtain rfl : [web] = rows := Option.some.inj hrows
    exact absurd ((hshows web).mp List.mem_cons_self) (by decide)

end Kubeast.WatchList
