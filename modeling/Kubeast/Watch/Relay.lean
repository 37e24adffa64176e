import Kubeast.Foundation.Transition

/-! A list's watch as the server relays it (`internal/ws/multiplexer.go`, `runWatch` and
`forwardEvents`), against an API server whose watched objects change meanwhile. -/
namespace Kubeast.Watch
open Transition

inductive Kind
  | added
  | modified
  | deleted
deriving DecidableEq

/-- A change of a watched object, at the version it made. -/
structure Change where
  key : String
  kind : Kind
  version : ℕ
deriving DecidableEq

/-- The API server: its version, and the changes of the watched objects in their order. -/
structure Cluster where
  version : ℕ
  log : List Change
  ordered : log.Pairwise fun c d => c.version < d.version
  bounded : ∀ c ∈ log, c.version ≤ version

namespace Cluster

def change (k : Cluster) (key : String) (kind : Kind) : Cluster where
  version := k.version + 1
  log := k.log ++ [⟨key, kind, k.version + 1⟩]
  ordered := by
    refine List.pairwise_append.mpr ⟨k.ordered, List.pairwise_singleton .., fun c hc d hd => ?_⟩
    obtain rfl := List.mem_singleton.mp hd
    exact Nat.lt_succ_of_le (k.bounded c hc)
  bounded := by
    intro c hc
    rcases List.mem_append.mp hc with hc | hc
    · exact Nat.le_succ_of_le (k.bounded c hc)
    · obtain rfl := List.mem_singleton.mp hc
      exact Nat.le_refl _

/-- Something that is not watched changes. -/
def other (k : Cluster) : Cluster :=
  { k with version := k.version + 1, bounded := fun c hc => Nat.le_succ_of_le (k.bounded c hc) }

/-- The last changes of the objects there are. -/
def objects (k : Cluster) : List Change :=
  k.log.filter fun c =>
    c.kind ≠ .deleted && k.log.all fun d => d.key ≠ c.key || decide (d.version ≤ c.version)

end Cluster

/-- What the API server has still to send on a watch: objects there were when it was opened from no
version, in any order, and then every change after a version. -/
structure Stream where
  initial : List Change
  next : ℕ

/-- Where `runWatch` stands. -/
inductive Control
  | opening
  | resyncing (w : Stream)
  | forwarding (w : Stream)
  | pausing
  | stopped

/-- A frame for the client. Of a RESYNC frame it is kept at which version it is sent, and after
which version the watch that is open sends every change. -/
inductive Frame
  | data (type : Kind) (key : String) (version : ℕ)
  | resync (sentAt after : ℕ)
  | error (message reason : String)
deriving DecidableEq

structure State where
  cluster : Cluster
  control : Control
  lastResourceVersion : Option ℕ
  resync : Bool
  /-- The latest first. -/
  frames : List Frame
  /-- The version when the first watch was opened, and when the last one was. -/
  firstOpen : Option ℕ
  lastOpen : Option ℕ

def State.start (k : Cluster) : State := ⟨k, .opening, none, false, [], none, none⟩

inductive Answer
  | open
  | expired (message : String)
  | failed (message reason : String)
deriving DecidableEq

inductive Step
  | change (key : String) (kind : Kind)
  | other
  | unloaded
  | watch (a : Answer)
  | sendResync
  /-- The object at a place of those still to be sent. -/
  | initial (i : ℕ)
  | next
  | bookmark (version : ℕ)
  | errorEvent (expired : Bool)
  | ended
  | resume
  | cancel

namespace State

def send (s : State) (f : Frame) : State := { s with frames := f :: s.frames }

def stream (s : State) : Stream :=
  match s.lastResourceVersion with
  | none => ⟨s.cluster.objects, s.cluster.version⟩
  | some v => ⟨[], v⟩

/-- The answer to the call that opens the watch. -/
def watch (s : State) : Answer → State
  | .open =>
      let s := { s with
        firstOpen := some (s.firstOpen.getD s.cluster.version), lastOpen := some s.cluster.version
        control := if s.resync then .resyncing s.stream else .forwarding s.stream }
      { s with resync := false }
  | .expired message =>
      if s.lastResourceVersion ≠ none then { s with lastResourceVersion := none, resync := true }
      else { s.send (.error message "failed") with control := .pausing, resync := true }
  | .failed message reason =>
      { s.send (.error message reason) with control := .pausing, resync := true }

/-- The watch is over; `expired` says that the API server no longer has its version. -/
def watchEnded (s : State) (expired : Bool) : State :=
  if expired = true ∧ s.lastResourceVersion ≠ none then
    { s with control := .pausing, lastResourceVersion := none, resync := true }
  else { s with control := .pausing }

def forward (s : State) (w : Stream) (c : Change) (type : Kind) : State :=
  { s.send (.data type c.key c.version) with
    control := .forwarding w, lastResourceVersion := some c.version }

/-- A bookmark is behind every change that has not been sent. -/
def bookmarkFits (s : State) (w : Stream) (version : ℕ) : Bool :=
  decide (version ≤ s.cluster.version) &&
    s.cluster.log.all fun c => decide (c.version ≤ version → c.version ≤ w.next)

end State

def step (s : State) : Step → State
  | .change key kind => { s with cluster := s.cluster.change key kind }
  | .other => { s with cluster := s.cluster.other }
  | .cancel => { s with control := .stopped }
  | a =>
    match s.control, a with
    | .opening, .unloaded =>
        { s.send (.error "kubeconfig not loaded" "unreachable") with control := .stopped }
    | .opening, .watch answer => s.watch answer
    | .resyncing w, .sendResync =>
        { s.send (.resync s.cluster.version w.next) with control := .forwarding w }
    | .forwarding w, .initial i =>
        match w.initial[i]? with
        | none => s
        | some c => s.forward { w with initial := w.initial.eraseIdx i } c .added
    | .forwarding w, .next =>
        match w.initial, s.cluster.log.find? fun c => w.next < c.version with
        | [], some c => s.forward { w with next := c.version } c c.kind
        | _, _ => s
    | .forwarding w, .bookmark version =>
        if s.bookmarkFits w version then { s with lastResourceVersion := some version } else s
    | .forwarding _, .errorEvent true => s.watchEnded true
    | .forwarding _, .ended => s.watchEnded false
    | .pausing, .resume => { s with control := .opening }
    | _, _ => s

/-- The watch that is open has sent all it has to send. -/
def State.CaughtUp (s : State) : Prop :=
  ∃ w, s.control = .forwarding w ∧ w.initial = [] ∧ ∀ c ∈ s.cluster.log, c.version ≤ w.next

def State.Sent (s : State) (c : Change) : Prop := .data c.kind c.key c.version ∈ s.frames

/-- A RESYNC frame was sent after the change, with a watch open that sends every later one. -/
def State.Resynced (s : State) (c : Change) : Prop :=
  ∃ sentAt after, .resync sentAt after ∈ s.frames ∧ c.version ≤ sentAt ∧ after ≤ sentAt

/-- Nothing that changed since the first watch was opened is missing. -/
def State.Lossless (s : State) : Prop :=
  s.CaughtUp → ∀ first, s.firstOpen = some first → ∀ c ∈ s.cluster.log, first < c.version →
    s.Sent c ∨ s.Resynced c

end Kubeast.Watch

/-! No change is lost in a run whose watches from no version start where nothing has been missed. -/
namespace Kubeast.Watch
open Transition

variable {s s' : State} {c d : Change} {w : Stream} {a : Step} {v : ℕ}

/-- Before a watch is opened from no version with no RESYNC due, nothing has changed since the
last one was opened. -/
def NothingMissed (s : State) (a : Step) : Prop :=
  a = .watch .open → s.lastResourceVersion = none → s.resync = false →
    ∀ v, s.lastOpen = some v → ∀ c ∈ s.cluster.log, c.version ≤ v

/-- A change since the first watch was opened that no frame tells of. -/
structure State.Missing (s : State) (c : Change) : Prop where
  made : c ∈ s.cluster.log
  later : ∃ first, s.firstOpen = some first ∧ first < c.version
  unsent : ¬(s.Sent c ∨ s.Resynced c)

/-- The places that a watch from no version may be opened from without RESYNC. -/
def Control.live : Control → Bool
  | .opening | .forwarding _ | .pausing => true
  | .resyncing _ | .stopped => false

def Control.stream : Control → Option Stream
  | .resyncing w | .forwarding w => some w
  | .opening | .pausing | .stopped => none

/-- What is missing will still be sent. -/
structure Sound (s : State) : Prop where
  opened : s.firstOpen = none ↔ s.lastOpen = none
  opens : ∀ v, s.lastOpen = some v → v ≤ s.cluster.version
  resumes : ∀ v, s.lastResourceVersion = some v → v ≤ s.cluster.version ∧ ∀ c, s.Missing c → v < c.version
  restarts : s.lastResourceVersion = none → s.resync = false → s.control.live = true →
    ∀ v, s.lastOpen = some v → ∀ c, s.Missing c → v < c.version
  stream : ∀ w, s.control.stream = some w →
    w.next ≤ s.cluster.version ∧ ∀ c ∈ w.initial, c.version ≤ w.next
  follows : ∀ w, s.control = .forwarding w → ∀ c, s.Missing c → w.next < c.version

section Missing

theorem State.Sent.mono (hframes : s.frames ⊆ s'.frames) (h : s.Sent c) : s'.Sent c := hframes h

theorem State.Resynced.mono (hframes : s.frames ⊆ s'.frames) (h : s.Resynced c) : s'.Resynced c := by
  obtain ⟨sentAt, after, hmem, hrest⟩ := h
  exact ⟨sentAt, after, hframes hmem, hrest⟩

/-- More frames and the same changes leave no more missing. -/
theorem State.Missing.of_frames (h : s'.Missing c) (hcluster : s'.cluster = s.cluster)
    (hfirst : s'.firstOpen = s.firstOpen) (hframes : s.frames ⊆ s'.frames) : s.Missing c :=
  ⟨hcluster ▸ h.made, hfirst ▸ h.later, fun hc =>
    h.unsent (hc.imp (State.Sent.mono hframes) (State.Resynced.mono hframes))⟩

theorem objects_le (k : Cluster) : ∀ c ∈ k.objects, c.version ≤ k.version := fun c hc =>
  k.bounded c (List.mem_of_mem_filter hc)

/-- The first change after a version comes before every other one. -/
theorem find_lt {k : Cluster} (h : (k.log.find? fun c => v < c.version) = some c) (hd : d ∈ k.log)
    (hlt : v < d.version) : d = c ∨ c.version < d.version := by
  obtain ⟨-, as, bs, hlog, has⟩ := List.find?_eq_some_iff_append.mp h
  have hordered := k.ordered
  rw [hlog] at hd hordered
  rcases List.mem_append.mp hd with hd | hd
  · exact absurd hlt (by simpa using has d hd)
  · rcases List.mem_cons.mp hd with rfl | hd
    · exact Or.inl rfl
    · exact Or.inr (List.rel_of_pairwise_cons (List.pairwise_append.mp hordered).2.1 hd)

end Missing

section Steps

/-- A step of the loop that opens no watch. -/
theorem Sound.moved (h : Sound s) (hcluster : s'.cluster = s.cluster) (hfirst : s'.firstOpen = s.firstOpen)
    (hlast : s'.lastOpen = s.lastOpen) (hframes : s.frames ⊆ s'.frames)
    (hresumes : ∀ v, s'.lastResourceVersion = some v →
      v ≤ s.cluster.version ∧ ∀ c, s'.Missing c → v < c.version)
    (hrestarts : s'.lastResourceVersion = none → s'.resync = false → s'.control.live = true →
      s.lastResourceVersion = none ∧ s.resync = false ∧ s.control.live = true ∨ ∀ c, ¬s'.Missing c)
    (hstream : ∀ w, s'.control.stream = some w → w.next ≤ s.cluster.version ∧
      ∀ c ∈ w.initial, c.version ≤ w.next)
    (hfollows : ∀ w, s'.control = .forwarding w → ∀ c, s'.Missing c → w.next < c.version) : Sound s' where
  opened := by rw [hfirst, hlast]; exact h.opened
  opens v hv := hcluster ▸ h.opens v (hlast ▸ hv)
  resumes v hv := hcluster ▸ hresumes v hv
  restarts hnone hresync hlive v hv c hc := by
    rcases hrestarts hnone hresync hlive with ⟨hnone, hresync, hlive⟩ | hall
    · exact h.restarts hnone hresync hlive v (hlast ▸ hv) c (hc.of_frames hcluster hfirst hframes)
    · exact absurd hc (hall c)
  stream w hw := hcluster ▸ hstream w hw
  follows := hfollows

/-- The same, where no watch stays open. -/
theorem Sound.left (h : Sound s) (hcluster : s'.cluster = s.cluster) (hfirst : s'.firstOpen = s.firstOpen)
    (hlast : s'.lastOpen = s.lastOpen) (hframes : s.frames ⊆ s'.frames)
    (hversion : ∀ v, s'.lastResourceVersion = some v → s.lastResourceVersion = some v)
    (hrestarts : s'.lastResourceVersion = none → s'.resync = false → s'.control.live = true →
      s.lastResourceVersion = none ∧ s.resync = false ∧ s.control.live = true)
    (hstream : s'.control.stream = none) : Sound s' := by
  refine h.moved hcluster hfirst hlast hframes ?_ (fun h₁ h₂ h₃ => Or.inl (hrestarts h₁ h₂ h₃)) ?_ ?_
  · intro v hv
    obtain ⟨hle, hlt⟩ := h.resumes v (hversion v hv)
    exact ⟨hle, fun c hc => hlt c (hc.of_frames hcluster hfirst hframes)⟩
  · rw [hstream]
    rintro w ⟨⟩
  · intro w hw
    rw [hw] at hstream
    cases hstream

/-- What changes now has a version above every one that is known. -/
theorem Sound.change (h : Sound s) (key : String) (kind : Kind) :
    Sound { s with cluster := s.cluster.change key kind } := by
  have hold (c : Change) (hc : State.Missing { s with cluster := s.cluster.change key kind } c) :
      s.Missing c ∨ c.version = s.cluster.version + 1 := by
    rcases List.mem_append.mp hc.made with hmade | hnew
    · exact Or.inl ⟨hmade, hc.later, hc.unsent⟩
    · exact Or.inr (congrArg Change.version (List.mem_singleton.mp hnew))
  refine ⟨h.opened, fun v hv => Nat.le_succ_of_le (h.opens v hv), ?_, ?_, ?_, ?_⟩
  · intro v hv
    obtain ⟨hle, hlt⟩ := h.resumes v hv
    refine ⟨Nat.le_succ_of_le hle, fun c hc => ?_⟩
    rcases hold c hc with hc | hc
    · exact hlt c hc
    · omega
  · intro hnone hresync hlive v hv c hc
    have hle := h.opens v hv
    rcases hold c hc with hc | hc
    · exact h.restarts hnone hresync hlive v hv c hc
    · omega
  · intro w hw
    obtain ⟨hle, hinitial⟩ := h.stream w hw
    exact ⟨Nat.le_succ_of_le hle, hinitial⟩
  · intro w hw c hc
    have hcontrol : s.control = .forwarding w := hw
    have hle := (h.stream w (by rw [hcontrol]; rfl)).1
    rcases hold c hc with hc | hc
    · exact h.follows w hw c hc
    · omega

theorem Sound.other (h : Sound s) : Sound { s with cluster := s.cluster.other } := by
  have hold (c : Change) (hc : State.Missing { s with cluster := s.cluster.other } c) : s.Missing c :=
    ⟨hc.made, hc.later, hc.unsent⟩
  refine ⟨h.opened, fun v hv => Nat.le_succ_of_le (h.opens v hv), ?_, ?_, ?_, ?_⟩
  · intro v hv
    obtain ⟨hle, hlt⟩ := h.resumes v hv
    exact ⟨Nat.le_succ_of_le hle, fun c hc => hlt c (hold c hc)⟩
  · exact fun hnone hresync hlive v hv c hc => h.restarts hnone hresync hlive v hv c (hold c hc)
  · intro w hw
    obtain ⟨hle, hinitial⟩ := h.stream w hw
    exact ⟨Nat.le_succ_of_le hle, hinitial⟩
  · exact fun w hw c hc => h.follows w hw c (hold c hc)

/-- Nothing is missing when a watch is opened from no version and none is asked to resync. -/
theorem Sound.none_missing (h : Sound s) (hcontrol : s.control = .opening)
    (hguard : NothingMissed s (.watch .open)) (hnone : s.lastResourceVersion = none)
    (hresync : s.resync = false) : ¬s.Missing c := by
  intro hc
  obtain ⟨first, hfirst, -⟩ := hc.later
  have hlast : s.lastOpen ≠ none := by
    intro hnever
    rw [h.opened.mpr hnever] at hfirst
    cases hfirst
  obtain ⟨v, hv⟩ := Option.ne_none_iff_exists'.mp hlast
  have hlive : s.control.live = true := by rw [hcontrol]; rfl
  have hlt := h.restarts hnone hresync hlive v hv c hc
  have hle := hguard rfl hnone hresync v hv c hc.made
  omega

theorem Sound.open (h : Sound s) (hcontrol : s.control = .opening)
    (hguard : NothingMissed s (.watch .open)) : Sound (s.watch .open) := by
  have hmissing (c : Change) (hc : (s.watch .open).Missing c) : s.Missing c := by
    refine ⟨hc.made, ?_, hc.unsent⟩
    obtain ⟨first, hfirst, hlt⟩ := hc.later
    cases hopen : s.firstOpen with
    | none =>
      -- the first watch: nothing has changed since
      have hnow : s.cluster.version = first := by simpa [State.watch, hopen] using hfirst
      have hle := s.cluster.bounded c hc.made
      omega
    | some v =>
      have hsame : v = first := by simpa [State.watch, hopen] using hfirst
      exact ⟨v, rfl, hsame ▸ hlt⟩
  have hstreams : s.stream.next ≤ s.cluster.version ∧ ∀ c ∈ s.stream.initial, c.version ≤ s.stream.next := by
    unfold State.stream
    cases hversion : s.lastResourceVersion with
    | none => exact ⟨Nat.le_refl _, objects_le s.cluster⟩
    | some v => exact ⟨(h.resumes v hversion).1, by simp⟩
  have hstream (w : Stream) (hw : (s.watch .open).control.stream = some w) : w = s.stream := by
    unfold State.watch at hw
    dsimp only at hw
    split at hw <;> exact (Option.some.inj hw).symm
  refine ⟨by simp [State.watch], ?_, ?_, ?_, ?_, ?_⟩
  · intro v hv
    obtain rfl := Option.some.inj hv
    exact Nat.le_refl _
  · intro v hv
    obtain ⟨hle, hlt⟩ := h.resumes v hv
    exact ⟨hle, fun c hc => hlt c (hmissing c hc)⟩
  · intro hnone _ hlive v hv c hc
    have hresync : s.resync = false := by
      cases hresync : s.resync with
      | false => rfl
      | true => simp [State.watch, hresync, Control.live] at hlive
    exact absurd (hmissing c hc) (h.none_missing hcontrol hguard hnone hresync)
  · intro w hw
    rw [hstream w hw]
    exact hstreams
  · intro w hw c hc
    have hnext : w = s.stream := hstream w (by rw [hw]; rfl)
    have hresync : s.resync = false := by
      cases hresync : s.resync with
      | false => rfl
      | true => simp [State.watch, hresync] at hw
    have hold := hmissing c hc
    rw [hnext]
    unfold State.stream
    cases hversion : s.lastResourceVersion with
    | none => exact absurd hold (h.none_missing hcontrol hguard hversion hresync)
    | some v => exact (h.resumes v hversion).2 c hold

theorem Sound.watch (h : Sound s) (hcontrol : s.control = .opening) {answer : Answer}
    (hguard : NothingMissed s (.watch answer)) : Sound (s.watch answer) := by
  cases answer with
  | «open» => exact h.open hcontrol hguard
  | expired message =>
    dsimp only [State.watch]
    split
    · refine h.left rfl rfl rfl (List.Subset.refl _) ?_ ?_ ?_
      · rintro v ⟨⟩
      · rintro - ⟨⟩
      · show s.control.stream = none
        rw [hcontrol]
        rfl
    · refine h.left rfl rfl rfl (List.subset_cons_self _ _) (fun v hv => hv) ?_ rfl
      rintro - ⟨⟩
  | failed message reason =>
    refine h.left rfl rfl rfl (List.subset_cons_self _ _) (fun v hv => hv) ?_ rfl
    rintro - ⟨⟩

/-- Every change so far is one the RESYNC frame is sent after. -/
theorem Sound.resynced (h : Sound s) (hcontrol : s.control = .resyncing w) :
    Sound { s.send (.resync s.cluster.version w.next) with control := .forwarding w } := by
  have hw := h.stream w (by rw [hcontrol]; rfl)
  have hnone (c : Change) :
      ¬State.Missing { s.send (.resync s.cluster.version w.next) with control := .forwarding w } c := by
    intro hc
    exact hc.unsent (Or.inr ⟨_, _, List.mem_cons_self, s.cluster.bounded c hc.made, hw.1⟩)
  refine h.moved rfl rfl rfl (List.subset_cons_self _ _) ?_ (fun _ _ _ => Or.inr hnone) ?_ ?_
  · exact fun v hv => ⟨(h.resumes v hv).1, fun c hc => absurd hc (hnone c)⟩
  · rintro _ ⟨⟩
    exact hw
  · exact fun _ _ c hc => absurd hc (hnone c)

theorem Sound.forward (h : Sound s) {w' : Stream} {kind : Kind} (hc : c.version ≤ s.cluster.version)
    (hmissing : ∀ d, (s.forward w' c kind).Missing d → c.version < d.version ∧ w'.next < d.version)
    (hw' : w'.next ≤ s.cluster.version ∧ ∀ d ∈ w'.initial, d.version ≤ w'.next) :
    Sound (s.forward w' c kind) := by
  refine h.moved rfl rfl rfl (List.subset_cons_self _ _) ?_ ?_ ?_ ?_
  · rintro _ ⟨⟩
    exact ⟨hc, fun d hd => (hmissing d hd).1⟩
  · rintro ⟨⟩
  · rintro _ ⟨⟩
    exact hw'
  · rintro _ ⟨⟩ d hd
    exact (hmissing d hd).2

theorem Sound.initial (h : Sound s) (hcontrol : s.control = .forwarding w) {i : ℕ}
    (hi : w.initial[i]? = some c) :
    Sound (s.forward { w with initial := w.initial.eraseIdx i } c .added) := by
  obtain ⟨hle, hinitial⟩ := h.stream w (by rw [hcontrol]; rfl)
  have hc := hinitial c (List.mem_of_getElem? hi)
  refine h.forward (Nat.le_trans hc hle) ?_ ⟨hle, fun d hd => hinitial d (List.mem_of_mem_eraseIdx hd)⟩
  intro d hd
  have hlt := h.follows w hcontrol d (hd.of_frames rfl rfl (List.subset_cons_self _ _))
  exact ⟨Nat.lt_of_le_of_lt hc hlt, hlt⟩

theorem Sound.next (h : Sound s) (hcontrol : s.control = .forwarding w) (hw : w.initial = [])
    (hc : (s.cluster.log.find? fun c => w.next < c.version) = some c) :
    Sound (s.forward { w with next := c.version } c c.kind) := by
  have hbound := s.cluster.bounded c (List.mem_of_find?_eq_some hc)
  have hlater (d : Change) (hd : (s.forward { w with next := c.version } c c.kind).Missing d) :
      c.version < d.version := by
    have hold : s.Missing d := hd.of_frames rfl rfl (List.subset_cons_self _ _)
    rcases find_lt hc hold.made (h.follows w hcontrol d hold) with rfl | hlt
    · exact absurd (Or.inl List.mem_cons_self) hd.unsent
    · exact hlt
  exact h.forward hbound (fun d hd => ⟨hlater d hd, hlater d hd⟩) ⟨hbound, by simp [hw]⟩

theorem Sound.bookmark (h : Sound s) (hcontrol : s.control = .forwarding w)
    (hfits : s.bookmarkFits w v = true) : Sound { s with lastResourceVersion := some v } := by
  simp only [State.bookmarkFits, Bool.and_eq_true, decide_eq_true_eq, List.all_eq_true] at hfits
  obtain ⟨hle, hsent⟩ := hfits
  have hmissing (c : Change) (hc : State.Missing { s with lastResourceVersion := some v } c) : s.Missing c :=
    ⟨hc.made, hc.later, hc.unsent⟩
  refine h.moved rfl rfl rfl (List.Subset.refl _) ?_ ?_ h.stream ?_
  · rintro _ ⟨⟩
    refine ⟨hle, fun c hc => ?_⟩
    have hlt := h.follows w hcontrol c (hmissing c hc)
    have hbehind := hsent c hc.made
    omega
  · rintro ⟨⟩
  · exact fun w hw c hc => h.follows w hw c (hmissing c hc)

theorem Sound.watchEnded (h : Sound s) (hcontrol : s.control = .forwarding w) (expired : Bool) :
    Sound (s.watchEnded expired) := by
  unfold State.watchEnded
  split
  · refine h.left rfl rfl rfl (List.Subset.refl _) ?_ ?_ rfl
    · rintro v ⟨⟩
    · rintro - ⟨⟩
  · refine h.left rfl rfl rfl (List.Subset.refl _) (fun v hv => hv) (fun hnone hresync _ => ?_) rfl
    exact ⟨hnone, hresync, by rw [hcontrol]; rfl⟩

theorem Sound.step (h : Sound s) (hguard : NothingMissed s a) : Sound (step s a) := by
  cases a with
  | change key kind => exact h.change key kind
  | other => exact h.other
  | cancel => exact h.left rfl rfl rfl (List.Subset.refl _) (fun v hv => hv) (by rintro - - ⟨⟩) rfl
  | unloaded =>
    cases hcontrol : s.control <;> simp only [Watch.step, hcontrol] <;> try exact h
    exact h.left rfl rfl rfl (List.subset_cons_self _ _) (fun v hv => hv) (by rintro - - ⟨⟩) rfl
  | watch answer =>
    cases hcontrol : s.control <;> simp only [Watch.step, hcontrol] <;> try exact h
    exact h.watch hcontrol hguard
  | sendResync =>
    cases hcontrol : s.control <;> simp only [Watch.step, hcontrol] <;> try exact h
    exact h.resynced hcontrol
  | initial i =>
    cases hcontrol : s.control <;> simp only [Watch.step, hcontrol] <;> try exact h
    split
    · exact h
    · next hi => exact h.initial hcontrol hi
  | next =>
    cases hcontrol : s.control <;> simp only [Watch.step, hcontrol] <;> try exact h
    split
    · next hw hc => exact h.next hcontrol hw hc
    · exact h
  | bookmark v =>
    cases hcontrol : s.control <;> simp only [Watch.step, hcontrol] <;> try exact h
    split
    · next hfits => simpa only [hcontrol] using h.bookmark hcontrol hfits
    · exact h
  | errorEvent expired =>
    cases hcontrol : s.control <;> cases expired <;> simp only [Watch.step, hcontrol] <;> try exact h
    exact h.watchEnded hcontrol true
  | ended =>
    cases hcontrol : s.control <;> simp only [Watch.step, hcontrol] <;> try exact h
    exact h.watchEnded hcontrol false
  | resume =>
    cases hcontrol : s.control <;> simp only [Watch.step, hcontrol] <;> try exact h
    refine h.left rfl rfl rfl (List.Subset.refl _) (fun v hv => hv) (fun hnone hresync _ => ?_) rfl
    exact ⟨hnone, hresync, by rw [hcontrol]; rfl⟩

theorem sound_start (k : Cluster) : Sound (State.start k) := by
  constructor
  · exact Iff.rfl
  · rintro v ⟨⟩
  · rintro v ⟨⟩
  · rintro - - - v ⟨⟩
  · rintro w ⟨⟩
  · rintro w ⟨⟩

theorem Sound.lossless (h : Sound s) : s.Lossless := by
  rintro ⟨w, hcontrol, -, hsent⟩ first hfirst c hc hlt
  by_contra hunsent
  have hnext := h.follows w hcontrol c ⟨hc, ⟨first, hfirst, hlt⟩, hunsent⟩
  have hle := hsent c hc
  omega

end Steps

/-- A run whose watches from no version miss nothing loses no change. -/
theorem watch_loses_nothing (k : Cluster) (as : List Step)
    (h : Along step NothingMissed (State.start k) as) : (exec step (State.start k) as).Lossless :=
  (exec_invariant (fun _ _ => Sound.step) (sound_start k) h).lossless

def onePod : Cluster := ⟨1, [⟨"web", .added, 1⟩], by simp, by simp⟩

/-- The pod is sent and then deleted, a moment before the watch runs into its time limit. -/
theorem watch_loses_nothing_one_pod :
    (exec step (State.start onePod) [.watch .open, .initial 0, .change "web" .deleted, .ended, .resume,
      .watch .open, .next]).Lossless := by
  apply watch_loses_nothing
  refine ⟨?_, ?_, ?_, ?_, ?_, ?_, ?_, trivial⟩
  · rintro - - - v ⟨⟩
  · rintro ⟨⟩
  · rintro ⟨⟩
  · rintro ⟨⟩
  · rintro ⟨⟩
  · rintro - ⟨⟩
  · rintro ⟨⟩

/-- The first watch ends before it has sent anything: that the pod goes away meanwhile is never
told. -/
theorem watch_ended_early_loses : ¬(exec step (State.start onePod) [.watch .open, .ended,
    .change "web" .deleted, .resume, .watch .open]).Lossless := by
  intro h
  have hlost := h ⟨⟨[], 2⟩, rfl, rfl, by decide⟩ 1 rfl ⟨"web", .deleted, 2⟩ (by decide) (by decide)
  rcases hlost with hsent | ⟨sentAt, after, hresync, -⟩
  · cases hsent
  · cases hresync

end Kubeast.Watch
