import Kubeast.Recordings.Manager

/-! Where the row of a closed recording, its stored parts and its file agree: in every run whose
flushes do not store one part beside each other, whose rows are up to date when they are closed, and
whose restarts cut what is left into enough parts to replace those already stored. -/
namespace Kubeast.Recordings
open Transition

variable {s : Recording} {a : Step} {w : Flush} {p : Phase} {e : Bool} {data : Bytes} {found : Bool} {n o q : ℕ}

/-- The flush has stored a part that the entry does not count yet. -/
def Phase.storing : Phase → Bool
  | .stored _ _ => true
  | _ => false

/-- The flush began before the session ended. -/
def Phase.early : Phase → Bool
  | .opening e | .statting e | .reading e _ _ | .cut e _ _ | .putting e _ _ _ | .stored e _ | .counted e
  | .saving e _ _ | .uploaded e => !e
  | _ => false

/-- A part is stored where no part has been counted since the length of its buffer was worked out, and no
other flush has stored one that is not counted; a row is closed where it counts every part, with no older
update on its way; and the parts stored past the row of a process that ends are as many as the next one cuts. -/
def Orderly (s : Recording) : Step → Prop
  | .putPart w r => ∀ e o n data, s.flush w = .putting e o n data → r ≠ .failed →
      o = s.entry.offset ∧ ∀ w', (s.flush w').storing = false
  | .closeOut w r => ∀ interrupted, s.flush w = .settling interrupted → r ≠ .failed ∧ s.row.parts = s.entry.parts ∧
      ∀ w' e o q, s.flush w' = .saving e o q → q = s.entry.parts
  | .restart _ => ∀ i, s.store i ≠ none → i < s.row.parts + cuts (s.file.drop s.row.uploadedBytes)
  | _ => True

/-- What a flush knows where it stands. -/
def Knows (s : Recording) : Phase → Prop
  | .idle | .listed => True
  | .opening e | .statting e | .counted e | .uploaded e => e = true → s.live = false
  | .reading e o size => (e = true → s.live = false ∧ size = s.file.length) ∧ o ≤ s.entry.offset ∧ o < size ∧
      size ≤ s.file.length
  | .cut e o data => (e = true → s.live = false) ∧ o ≤ s.entry.offset ∧
      (o = s.entry.offset → Next (s.file.drop s.entry.offset) e data)
  | .putting e o n data => (e = true → s.live = false) ∧ o ≤ s.entry.offset ∧
      (o = s.entry.offset → n = s.entry.parts ∧ Next (s.file.drop s.entry.offset) e data)
  | .stored e data => (e = true → s.live = false) ∧ s.store s.entry.parts = some data ∧
      Next (s.file.drop s.entry.offset) e data
  | .saving e o q => (e = true → s.live = false) ∧ Holds s.store s.file o q ∧ q ≤ s.entry.parts
  | .settling _ => s.live = false ∧ s.entry.offset = s.file.length
  | .closing => s.closedOut = true

/-- The session had ended when every flush under way began. -/
def Recording.AllEnded (s : Recording) : Prop := s.entry.ended = true ∧ ∀ w, (s.flush w).early = false

structure Sound (s : Recording) : Prop where
  whole : s.file.getLast? = some newline
  entry : Holds s.store s.file s.entry.offset s.entry.parts
  row : Holds s.store s.file s.row.uploadedBytes s.row.parts
  behind : s.row.parts ≤ s.entry.parts
  ended : s.entry.ended = true → s.live = false
  phase : ∀ w, Knows s (s.flush w)
  alone : ∀ w w', (s.flush w).storing = true → (s.flush w').storing = true → w = w'
  above : ∀ i, s.store i ≠ none → s.entry.parts ≤ i → (i = s.entry.parts ∧ s.entry.offset < s.file.length) ∨
    (s.AllEnded ∧ i < s.entry.parts + cuts (s.file.drop s.entry.offset))
  spool : s.spool = false → s.closedOut = true
  closed : s.closedOut = true → s.live = false ∧ s.row.uploadedBytes = s.file.length ∧
    s.row.parts = s.entry.parts ∧ ∀ w e o q, s.flush w = .saving e o q → q = s.entry.parts

section Steps

theorem Sound.closed_offset (h : Sound s) (hclosed : s.closedOut = true) : s.entry.offset = s.file.length := by
  obtain ⟨-, hlen, hparts, -⟩ := h.closed hclosed
  rw [← hlen]
  exact h.entry.unique (hparts ▸ h.row)

theorem Sound.rest_last (h : Sound s) (hne : s.file.drop s.entry.offset ≠ []) :
    (s.file.drop s.entry.offset).getLast? = some newline := by
  rw [Ne, List.drop_eq_nil_iff] at hne
  rw [List.getLast?_drop, if_neg hne, h.whole]

theorem Knows.withPhase {q : Phase} (h : Knows s q) (w : Flush) (p : Phase) : Knows (s.withPhase w p) q := by
  cases q <;> exact h

theorem flush_withPhase (s : Recording) (w w' : Flush) (p : Phase) :
    (s.withPhase w p).flush w' = if w' = w then p else s.flush w' := by
  rw [Recording.withPhase]
  dsimp only
  split
  · next heq => rw [heq, Function.update_self]
  · next hne => rw [Function.update_of_ne hne]

/-- A flush goes on, and nothing else changes. -/
theorem Sound.move (h : Sound s) (w : Flush) (hp : Knows s p)
    (hstoring : p.storing = true → ∀ w', (s.flush w').storing = false)
    (hearly : p.early = true → s.entry.ended = false ∨ (s.flush w).early = true)
    (hsaving : ∀ e o q, p = .saving e o q → q = s.entry.parts) : Sound (s.withPhase w p) := by
  refine ⟨h.whole, h.entry, h.row, h.behind, h.ended, fun w' => ?_, fun w' w'' hw' hw'' => ?_, ?_, h.spool, ?_⟩
  · rw [flush_withPhase]
    split
    · exact hp.withPhase w p
    · exact (h.phase w').withPhase w p
  · rw [flush_withPhase] at hw' hw''
    split at hw' <;> split at hw''
    · next heq heq' => rw [heq, heq']
    · exact absurd hw'' (by simp [hstoring hw' w''])
    · exact absurd hw' (by simp [hstoring hw'' w'])
    · exact h.alone w' w'' hw' hw''
  · intro i hi hle
    refine (h.above i hi hle).imp_right fun ⟨⟨hended, hall⟩, hlt⟩ => ⟨⟨hended, fun w' => ?_⟩, hlt⟩
    rw [flush_withPhase]
    split
    · by_contra hp'
      rcases hearly (by simpa using hp') with hnot | hwas
      · exact absurd (hended.symm.trans hnot) (by decide)
      · exact absurd (hwas.symm.trans (hall w)) (by decide)
    · exact hall w'
  · intro hclosed
    obtain ⟨hlive, hlen, hparts, hupdates⟩ := h.closed hclosed
    refine ⟨hlive, hlen, hparts, fun w' e o q hw' => ?_⟩
    rw [flush_withPhase] at hw'
    split at hw'
    · exact hsaving e o q hw'
    · exact hupdates w' e o q hw'

/-- A flush goes on with what it began with. -/
theorem Sound.advance (h : Sound s) (hp : Knows s p) (hstoring : p.storing = false)
    (hearly : p.early = true → (s.flush w).early = true) (hsaving : ∀ e o q, p ≠ .saving e o q) :
    Sound (s.withPhase w p) :=
  h.move w hp (fun hs => absurd (hs.symm.trans hstoring) (by decide)) (fun he => Or.inr (hearly he))
    fun e o q heq => absurd heq (hsaving e o q)

theorem Sound.write (h : Sound s) (hlive : s.live = true) (line : Bytes) :
    Sound { s with file := s.file ++ (line ++ [newline]) } := by
  have hopen {b : Prop} (hnot : s.live = false) : b := absurd (hlive.symm.trans hnot) (by decide)
  have hoffset : s.entry.offset ≤ s.file.length := by
    obtain ⟨ps, -, -, -, hle, -⟩ := h.entry
    exact hle
  have hnext {e : Bool} {data : Bytes} (he : e = true → s.live = false)
      (hdata : Next (s.file.drop s.entry.offset) e data) :
      Next ((s.file ++ (line ++ [newline])).drop s.entry.offset) e data := by
    refine ⟨?_, hdata.last, fun htrue => hopen (he htrue)⟩
    rw [List.drop_append_of_le_length hoffset]
    exact hdata.front.trans (List.prefix_append _ _)
  refine ⟨?_, h.entry.write, h.row.write, h.behind, h.ended, fun w => ?_, h.alone, ?_, h.spool, ?_⟩
  · rw [← List.append_assoc, List.getLast?_concat]
  · have hphase := h.phase w
    dsimp only
    cases hw : s.flush w <;> rw [hw] at hphase <;> try exact hphase
    · refine ⟨fun htrue => hopen (hphase.1 htrue).1, hphase.2.1, hphase.2.2.1, hphase.2.2.2.trans ?_⟩
      rw [List.length_append]
      exact Nat.le_add_right _ _
    · exact ⟨hphase.1, hphase.2.1, fun ho => hnext hphase.1 (hphase.2.2 ho)⟩
    · exact ⟨hphase.1, hphase.2.1, fun ho => ⟨(hphase.2.2 ho).1, hnext hphase.1 (hphase.2.2 ho).2⟩⟩
    · exact ⟨hphase.1, hphase.2.1, hnext hphase.1 hphase.2.2⟩
    · exact ⟨hphase.1, hphase.2.1.write, hphase.2.2⟩
    · exact hopen hphase.1
  · intro i hi hle
    rcases h.above i hi hle with ⟨hi, hlt⟩ | ⟨⟨hended, -⟩, -⟩
    · exact Or.inl ⟨hi, by simp only [List.length_append]; omega⟩
    · exact hopen (h.ended hended)
  · exact fun hclosed => hopen (h.closed hclosed).1

theorem Sound.close (h : Sound s) : Sound { s with live := false } := by
  refine ⟨h.whole, h.entry, h.row, h.behind, fun _ => rfl, fun w => ?_, h.alone, h.above, h.spool, ?_⟩
  · have hphase := h.phase w
    dsimp only
    cases hw : s.flush w <;> rw [hw] at hphase <;> try exact hphase
    · exact fun _ => rfl
    · exact fun _ => rfl
    · exact ⟨fun he => ⟨rfl, (hphase.1 he).2⟩, hphase.2⟩
    · exact ⟨fun _ => rfl, hphase.2⟩
    · exact ⟨fun _ => rfl, hphase.2⟩
    · exact ⟨fun _ => rfl, hphase.2⟩
    · exact fun _ => rfl
    · exact ⟨fun _ => rfl, hphase.2⟩
    · exact fun _ => rfl
    · exact ⟨rfl, hphase.2⟩
  · exact fun hclosed => ⟨rfl, (h.closed hclosed).2⟩

theorem Sound.end_ (h : Sound s) (hlive : s.live = false) (ending : Bool) :
    Sound { s with entry := { s.entry with ended := true }, ending := ending } := by
  refine ⟨h.whole, h.entry, h.row, h.behind, fun _ => hlive, fun w => ?_, h.alone, ?_, h.spool, h.closed⟩
  · have hphase := h.phase w
    dsimp only
    cases hw : s.flush w <;> rw [hw] at hphase <;> exact hphase
  · exact fun i hi hle => (h.above i hi hle).imp_right fun ⟨⟨_, hall⟩, hlt⟩ => ⟨⟨rfl, hall⟩, hlt⟩

/-- What the invariant does not read changes. -/
theorem Sound.same (h : Sound s) (status : Status) (interrupted active ending : Bool) :
    Sound { s with
      row := { s.row with status := status }
      entry := { s.entry with interrupted := interrupted, active := active }
      ending := ending } := by
  refine ⟨h.whole, h.entry, h.row, h.behind, h.ended, fun w => ?_, h.alone, h.above, h.spool, h.closed⟩
  have hphase := h.phase w
  dsimp only
  cases hw : s.flush w <;> rw [hw] at hphase <;> exact hphase

theorem Next.pos {rest : Bytes} (h : Next rest e data) : 0 < data.length ∧ data.length ≤ rest.length := by
  refine ⟨List.length_pos_of_ne_nil ?_, h.front.length_le⟩
  rintro rfl
  have hlast := h.last
  cases hlast

theorem Sound.putPart (h : Sound s) (hnext : Next (s.file.drop s.entry.offset) e data)
    (hnone : ∀ w, (s.flush w).storing = false) : Sound (s.putPart s.entry.parts data) := by
  refine ⟨h.whole, h.entry.put (Nat.le_refl _), h.row.put h.behind, h.behind, h.ended, fun w => ?_, h.alone, ?_,
    h.spool, h.closed⟩
  · have hphase := h.phase w
    have hw' := hnone w
    dsimp only [Recording.putPart]
    cases hw : s.flush w <;> rw [hw] at hphase hw' <;> try exact hphase
    · cases hw'
    · exact ⟨hphase.1, hphase.2.1.put hphase.2.2, hphase.2.2⟩
  · intro i hi hle
    by_cases heq : i = s.entry.parts
    · have hpos := hnext.pos
      rw [List.length_drop] at hpos
      refine Or.inl ⟨heq, ?_⟩
      dsimp only [Recording.putPart]
      omega
    · dsimp only [Recording.putPart] at hi
      rw [Function.update_of_ne heq] at hi
      exact h.above i hi hle

theorem Sound.countPart (h : Sound s) (hstored : s.store s.entry.parts = some data)
    (hnext : Next (s.file.drop s.entry.offset) e data) (hcut : s.AllEnded → e = true)
    (hnone : ∀ w, (s.flush w).storing = false) : Sound (s.countPart data) := by
  refine ⟨h.whole, h.entry.count hstored hnext.front hnext.last, h.row, Nat.le_succ_of_le h.behind, h.ended,
    fun w => ?_, h.alone, ?_, h.spool, fun hclosed => ?_⟩
  · have hphase := h.phase w
    have hw' := hnone w
    dsimp only [Recording.countPart]
    have hpos := hnext.pos
    have hless {o : ℕ} (hle : o ≤ s.entry.offset) (heq : o = s.entry.offset + data.length) : False := by omega
    cases hw : s.flush w <;> rw [hw] at hphase hw' <;> try exact hphase
    · exact ⟨hphase.1, hphase.2.1.trans (Nat.le_add_right _ _), hphase.2.2⟩
    · exact ⟨hphase.1, hphase.2.1.trans (Nat.le_add_right _ _), fun heq => (hless hphase.2.1 heq).elim⟩
    · exact ⟨hphase.1, hphase.2.1.trans (Nat.le_add_right _ _), fun heq => (hless hphase.2.1 heq).elim⟩
    · cases hw'
    · exact ⟨hphase.1, hphase.2.1, Nat.le_succ_of_le hphase.2.2⟩
    · rw [List.length_drop, hphase.2] at hpos
      omega
  · intro i hi hle
    dsimp only [Recording.countPart] at hi hle ⊢
    rcases h.above i hi (by omega) with ⟨heq, -⟩ | ⟨hall, hlt⟩
    · omega
    · rw [cuts_of_some (hnext.cut (hcut hall)), List.drop_drop] at hlt
      exact Or.inr ⟨hall, by omega⟩
  · have hpos := hnext.pos
    rw [List.length_drop, h.closed_offset hclosed] at hpos
    omega

theorem Sound.saveRow (h : Sound s) (hw : s.flush w = .saving e o q) : Sound (s.saveRow e o q) := by
  have hphase := h.phase w
  rw [hw] at hphase
  obtain ⟨-, hholds, hle⟩ := hphase
  refine ⟨h.whole, h.entry, hholds, hle, h.ended, fun w' => ?_, h.alone, h.above, h.spool, fun hclosed => ?_⟩
  · have hphase := h.phase w'
    dsimp only [Recording.saveRow]
    cases hw' : s.flush w' <;> rw [hw'] at hphase <;> exact hphase
  · obtain ⟨hlive, hlen, hparts, hupdates⟩ := h.closed hclosed
    have hq : q = s.entry.parts := hupdates w e o q hw
    have ho : o = s.row.uploadedBytes := hholds.unique (hq ▸ hparts ▸ h.row)
    exact ⟨hlive, ho.trans hlen, hq, hupdates⟩

/-- A flush that is through with an ended session has uploaded the file. -/
theorem Sound.closes (h : Sound s) (hcloses : s.closes w = true) :
    s.live = false ∧ s.entry.offset = s.file.length := by
  simp only [Recording.closes, Bool.and_eq_true, decide_eq_true_eq] at hcloses
  obtain ⟨hw, hsize⟩ := hcloses
  have hphase := h.phase w
  rw [hw] at hphase
  refine ⟨hphase rfl, ?_⟩
  cases hspool : s.spool with
  | true =>
    obtain ⟨ps, -, -, -, hle, -⟩ := h.entry
    rw [Recording.fileSize, if_pos hspool] at hsize
    omega
  | false => exact h.closed_offset (h.spool hspool)

theorem Sound.closeRow (h : Sound s) {interrupted : Bool} (hw : s.flush w = .settling interrupted)
    (hparts : s.row.parts = s.entry.parts)
    (hupdates : ∀ w' e o q, s.flush w' = .saving e o q → q = s.entry.parts) : Sound (s.closeRow interrupted) := by
  have hphase := h.phase w
  rw [hw] at hphase
  obtain ⟨hlive, hoffset⟩ := hphase
  have hrow : s.row.uploadedBytes = s.file.length := hoffset ▸ (hparts ▸ h.row).unique h.entry
  refine ⟨h.whole, h.entry, h.row, h.behind, h.ended, fun w' => ?_, h.alone, h.above, fun _ => rfl,
    fun _ => ⟨hlive, hrow, hparts, hupdates⟩⟩
  have hphase := h.phase w'
  dsimp only [Recording.closeRow]
  cases hw' : s.flush w' <;> rw [hw'] at hphase <;> try exact hphase
  rfl

theorem Sound.removeSpool (h : Sound s) (hclosed : s.closedOut = true) : Sound s.removeSpool := by
  refine ⟨h.whole, h.entry, h.row, h.behind, h.ended, fun w => ?_, h.alone, h.above, fun _ => hclosed, h.closed⟩
  have hphase := h.phase w
  dsimp only [Recording.removeSpool]
  cases hw : s.flush w <;> rw [hw] at hphase <;> exact hphase

theorem Sound.restart (h : Sound s) (hguard : Orderly s (.restart found)) : Sound (s.restart found) := by
  refine ⟨h.whole, h.row, h.row, Nat.le_refl _, fun _ => rfl, fun w => trivial, ?_, ?_, h.spool, fun hclosed => ?_⟩
  · rintro w w' ⟨⟩
  · exact fun i hi _ => Or.inr ⟨⟨rfl, fun w => rfl⟩, hguard i hi⟩
  · refine ⟨rfl, (h.closed hclosed).2.1, rfl, ?_⟩
    rintro w e o q ⟨⟩

theorem Sound.stat (h : Sound s) (hw : s.flush w = .statting e) :
    Sound (s.withPhase w (if s.file.length ≤ s.entry.offset then .uploaded e
      else .reading e s.entry.offset s.file.length)) := by
  have hphase := h.phase w
  rw [hw] at hphase
  have hearly {p : Phase} (hp : p.early = !e) (hp' : p.early = true) : (s.flush w).early = true := by
    rw [hw]
    exact hp.symm.trans hp'
  split
  · exact h.advance hphase rfl (hearly rfl) nofun
  · next hmore =>
    exact h.advance ⟨fun he => ⟨hphase he, rfl⟩, Nat.le_refl _, Nat.lt_of_not_le hmore, Nat.le_refl _⟩ rfl
      (hearly rfl) nofun

theorem Sound.read (h : Sound s) {size : ℕ} (hw : s.flush w = .reading e o size) :
    Sound (match cutPart e (readAt s.file s.entry.offset (min (size - o) partMaxBytes)) with
      | some data => s.withPhase w (.cut e o data)
      | none => s.withPhase w (.uploaded e)) := by
  have hphase := h.phase w
  rw [hw] at hphase
  obtain ⟨hended, hle, hlt, hsize⟩ := hphase
  have hlive : e = true → s.live = false := fun he => (hended he).1
  have hearly {p : Phase} (hp : p.early = !e) (hp' : p.early = true) : (s.flush w).early = true := by
    rw [hw]
    exact hp.symm.trans hp'
  split
  · next data hcut =>
    refine h.advance ⟨hlive, hle, fun ho => ?_⟩ rfl (hearly rfl) nofun
    -- Nothing was counted in between, so the buffer ends within the file.
    subst ho
    rw [readAt_eq (by omega)] at hcut
    refine next_of_cutPart hcut (List.take_prefix _ _) h.rest_last fun he => ?_
    rw [(hended he).2, ← List.length_drop, List.take_eq_take_iff]
    omega
  · exact h.advance hlive rfl (hearly rfl) nofun

/-- The put part takes effect, and the flush goes on or gives up. -/
theorem Sound.putting (h : Sound s) (hw : s.flush w = .putting e o n data) (ho : o = s.entry.offset)
    (hnone : ∀ w', (s.flush w').storing = false) :
    Sound ((s.putPart n data).withPhase w (.stored e data)) ∧ Sound ((s.putPart n data).withPhase w .idle) := by
  have hphase := h.phase w
  rw [hw] at hphase
  obtain ⟨rfl, hnext⟩ := hphase.2.2 ho
  have hput := h.putPart hnext hnone
  constructor
  · refine hput.move w ⟨hphase.1, Function.update_self _ _ _, hnext⟩ (fun _ => hnone) (fun he => Or.inr ?_) ?_
    · exact (congrArg Phase.early hw).trans he
    · rintro _ _ _ ⟨⟩
  · exact hput.advance trivial rfl nofun nofun

theorem Sound.counting (h : Sound s) (hw : s.flush w = .stored e data) :
    Sound ((s.countPart data).withPhase w (.counted e)) := by
  have hphase := h.phase w
  rw [hw] at hphase
  obtain ⟨hlive, hstored, hnext⟩ := hphase
  have hmoved : Sound (s.withPhase w (.counted e)) :=
    h.advance hlive rfl (fun he => (congrArg Phase.early hw).trans he) nofun
  refine hmoved.countPart hstored hnext (fun ⟨_, hall⟩ => ?_) fun w' => ?_
  · have hcounted := hall w
    rw [flush_withPhase, if_pos rfl] at hcounted
    simpa [Phase.early] using hcounted
  · rw [flush_withPhase]
    split
    · rfl
    · next hne =>
      by_contra hstoring
      have hboth := h.alone w' w (by simpa using hstoring) (by rw [hw]; rfl)
      exact hne hboth

theorem Sound.step (h : Sound s) (hguard : Orderly s a) : Sound (step s a) := by
  cases a with
  | write line =>
    simp only [Recordings.step]
    split
    · next hlive => exact h.write hlive line
    · exact h
  | close => exact h.close
  | ended =>
    simp only [Recordings.step]
    split
    · next hopen => exact h.end_ hopen.1 true
    · exact h
  | saveEnded r =>
    simp only [Recordings.step]
    split
    · cases r
      · exact h.same .uploading s.entry.interrupted s.entry.active false
      · exact h.same s.row.status s.entry.interrupted s.entry.active false
      · exact h.same .uploading s.entry.interrupted s.entry.active false
    · exact h
  | interrupt =>
    simp only [Recordings.step]
    split
    · exact h.same s.row.status true s.entry.active s.ending
    · exact h
  | list w =>
    simp only [Recordings.step]
    split
    · exact h.advance trivial rfl nofun nofun
    · exact h
  | begin w =>
    simp only [Recordings.step]
    split
    · refine h.move w h.ended nofun (fun he => Or.inl ?_) nofun
      simpa [Phase.early] using he
    · exact h
  | openFile w =>
    simp only [Recordings.step]
    split
    · next e hw =>
      have hphase := h.phase w
      rw [hw] at hphase
      split
      · exact h.advance hphase rfl (fun he => (congrArg Phase.early hw).trans he) nofun
      · exact h.advance trivial rfl nofun nofun
    · exact h
  | stat w =>
    simp only [Recordings.step]
    split
    · next e hw => exact h.stat hw
    · exact h
  | read w =>
    simp only [Recordings.step]
    split
    · next e o size hw => exact h.read hw
    · exact h
  | number w =>
    simp only [Recordings.step]
    split
    · next e o data hw =>
      have hphase := h.phase w
      rw [hw] at hphase
      exact h.advance ⟨hphase.1, hphase.2.1, fun ho => ⟨rfl, hphase.2.2 ho⟩⟩ rfl
        (fun he => (congrArg Phase.early hw).trans he) nofun
    · exact h
  | putPart w r =>
    simp only [Recordings.step]
    split
    · next e o n data hw =>
      have heffect (hr : r ≠ .failed) := h.putting hw (hguard e o n data hw hr).1 (hguard e o n data hw hr).2
      cases r with
      | done => exact (heffect (by decide)).1
      | failed => exact h.advance trivial rfl nofun nofun
      | failedAfter => exact (heffect (by decide)).2
    · exact h
  | count w =>
    simp only [Recordings.step]
    split
    · next e data hw => exact h.counting hw
    · exact h
  | updateRow w =>
    simp only [Recordings.step]
    split
    · next e hw =>
      have hphase := h.phase w
      rw [hw] at hphase
      refine h.move w ⟨hphase, h.entry, Nat.le_refl _⟩ nofun (fun he => Or.inr ?_) ?_
      · exact (congrArg Phase.early hw).trans he
      · rintro _ _ _ ⟨⟩
        rfl
    · exact h
  | rowUpdated w r =>
    simp only [Recordings.step]
    split
    · next e o q hw =>
      have hphase := h.phase w
      rw [hw] at hphase
      cases r with
      | done =>
        exact (h.saveRow hw).advance hphase.1 rfl (fun he => (congrArg Phase.early hw).trans he)
          nofun
      | failed => exact h.advance trivial rfl nofun nofun
      | failedAfter => exact (h.saveRow hw).advance trivial rfl nofun nofun
    · exact h
  | check w =>
    simp only [Recordings.step]
    split
    · split
      · next hcloses => exact h.advance (h.closes hcloses) rfl nofun nofun
      · exact h.advance trivial rfl nofun nofun
    · exact h
  | closeOut w r =>
    simp only [Recordings.step]
    split
    · next interrupted hw =>
      obtain ⟨hr, hparts, hupdates⟩ := hguard interrupted hw
      rw [if_neg hr]
      exact (h.closeRow hw hparts hupdates).advance rfl rfl nofun nofun
    · exact h
  | remove w =>
    simp only [Recordings.step]
    split
    · next hw =>
      have hphase := h.phase w
      rw [hw] at hphase
      exact (h.removeSpool hphase).advance trivial rfl nofun nofun
    · exact h
  | restart found => exact h.restart hguard

theorem sound_start (header : Bytes) : Sound (Recording.start header) := by
  refine ⟨List.getLast?_concat, holds_zero, holds_zero, Nat.le_refl _, nofun, fun w => trivial,
    nofun, ?_, nofun, nofun⟩
  rintro i hi
  exact absurd rfl hi

theorem Sound.uploaded (h : Sound s) (hclosed : s.closedOut = true) : s.Uploaded := by
  obtain ⟨-, -, hparts, -⟩ := h.closed hclosed
  have hoffset := h.closed_offset hclosed
  obtain ⟨ps, hlen, hstore, hflat, -, hlines⟩ := h.entry
  refine ⟨ps, fun i => ?_, hlen.trans hparts.symm, ?_, fun data hdata => hlines data (List.dropLast_subset _ hdata)⟩
  · by_cases hi : i < s.entry.parts
    · exact hstore i hi
    · rw [List.getElem?_eq_none (by omega)]
      by_contra hsome
      rcases h.above i hsome (by omega) with ⟨-, hlt⟩ | ⟨-, hlt⟩
      · omega
      · rw [hoffset, List.drop_length, cuts_nil] at hlt
        omega
  · rw [hflat, hoffset, List.take_length]

end Steps

/-- A recording that a flush has closed is its spool file, once, and the file is removed only then. -/
theorem recording_is_its_file (header : Bytes) (as : List Step) (h : Along step Orderly (Recording.start header) as) :
    ((exec step (Recording.start header) as).closedOut = true →
      (exec step (Recording.start header) as).Uploaded) ∧
    ((exec step (Recording.start header) as).spool = false →
      (exec step (Recording.start header) as).closedOut = true) := by
  have hsound := exec_invariant (fun _ _ => Sound.step) (sound_start header) h
  exact ⟨hsound.uploaded, hsound.spool⟩

/-- A session that ends, and the turn of a flush at it. -/
def sessionEnds : List Step := [.close, .ended, .saveEnded .done]

def turn (w : Flush) : List Step := [.list w, .begin w, .openFile w, .stat w, .read w, .number w]

theorem recording_is_its_file_one_line : (exec step (Recording.start []) (([.write [104]] : List Step) ++
    sessionEnds ++ turn .run ++ ([.putPart .run .done, .count .run, .updateRow .run, .rowUpdated .run .done,
      .stat .run, .check .run, .closeOut .run .done] : List Step))).Uploaded := by
  refine (recording_is_its_file [] _ ?_).1 rfl
  refine ⟨trivial, trivial, trivial, trivial, trivial, trivial, trivial, trivial, trivial, trivial, ?_, trivial,
    trivial, trivial, trivial, trivial, ?_, trivial⟩
  · rintro e o n data ⟨⟩ -
    exact ⟨rfl, fun w => by cases w <;> rfl⟩
  · rintro interrupted -
    refine ⟨by decide, rfl, fun w e o q hw => ?_⟩
    cases w <;> cases hw

/-- A row whose last update failed is closed without the part; and two flushes that store the same
part count it twice. -/
theorem closed_without_its_part :
    ((exec step (Recording.start []) (sessionEnds ++ turn .run ++ ([.putPart .run .done, .count .run,
        .updateRow .run, .rowUpdated .run .failed] : List Step) ++ turn .run ++
        ([.check .run, .closeOut .run .done] : List Step))).closedOut = true ∧
      ¬(exec step (Recording.start []) (sessionEnds ++ turn .run ++ ([.putPart .run .done, .count .run,
        .updateRow .run, .rowUpdated .run .failed] : List Step) ++ turn .run ++
        ([.check .run, .closeOut .run .done] : List Step))).Uploaded) ∧
    (exec step (Recording.start []) (sessionEnds ++ turn .run ++ turn .shutdown ++ ([.putPart .run .done,
        .putPart .shutdown .done, .count .run, .count .shutdown, .updateRow .run, .rowUpdated .run .done,
        .stat .run, .check .run, .closeOut .run .done] : List Step))).closedOut = true ∧
      ¬(exec step (Recording.start []) (sessionEnds ++ turn .run ++ turn .shutdown ++ ([.putPart .run .done,
        .putPart .shutdown .done, .count .run, .count .shutdown, .updateRow .run, .rowUpdated .run .done,
        .stat .run, .check .run, .closeOut .run .done] : List Step))).Uploaded := by
  refine ⟨⟨rfl, ?_⟩, rfl, ?_⟩
  · rintro ⟨parts, hstore, hlen, -, -⟩
    obtain rfl : parts = [] := List.length_eq_zero_iff.mp hlen
    cases hstore 0
  · rintro ⟨parts, hstore, hlen, -, -⟩
    have hlast : parts[1]? = none := (hstore 1).symm
    rw [List.getElem?_eq_none_iff] at hlast
    have hcount : parts.length = 2 := hlen
    omega

end Kubeast.Recordings
