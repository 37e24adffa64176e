import Kubeast.ChatSummary.History

/-! What the running summary covers: every message that left the window, once, in every run whose
turns read back to the first message that the notes do not cover. -/
namespace Kubeast.ChatSummary
open Transition

variable {c : Settings} {s : Session} {a : Step} {m : Message} {ms seen new : List Message}
  {e : Entry} {es : List Entry} {sum : Summary} {upto n limit : ℕ} {text : List Char}
  {note merged : Except String Note}

/-- Messages in the order they were saved. -/
abbrev Saved (ms : List Message) : Prop := ms.Pairwise fun a b => a.id < b.id ∧ a.createdAt ≤ b.createdAt

/-- What the user and the assistant said, and the part of it that left the window. -/
def Session.said (s : Session) : List Message := s.messages.filter Session.inHistory

def Session.older (c : Settings) (s : Session) : List Message := s.said.take (s.said.length - window c)

section Reading

theorem Saved.nodup_ids (h : Saved ms) : (ms.map Message.id).Nodup := by
  rw [List.Nodup, List.pairwise_map]
  exact h.imp fun hab => Nat.ne_of_lt hab.1

theorem mergeSort_newestFirst (h : Saved ms) : ms.mergeSort newestFirst = ms.reverse := by
  have hsorted : (ms.mergeSort newestFirst).Pairwise fun a b => newestFirst a b = true := by
    apply List.pairwise_mergeSort
    · intro a b d
      simp only [newestFirst, Bool.or_eq_true, Bool.and_eq_true, decide_eq_true_eq]
      omega
    · intro a b
      simp only [newestFirst, Bool.or_eq_true, Bool.and_eq_true, decide_eq_true_eq]
      omega
  have hreverse : ms.reverse.Pairwise fun a b => newestFirst a b = true := by
    rw [List.pairwise_reverse]
    refine h.imp fun hab => ?_
    simp only [newestFirst, Bool.or_eq_true, Bool.and_eq_true, decide_eq_true_eq]
    omega
  have hperm := List.mergeSort_perm ms newestFirst
  refine List.Perm.eq_of_pairwise ?_ hsorted hreverse (hperm.trans (List.reverse_perm ms).symm)
  intro a b ha hb hab hba
  have hid : a.id = b.id := by
    simp only [newestFirst, Bool.or_eq_true, Bool.and_eq_true, decide_eq_true_eq] at hab hba
    omega
  exact List.inj_on_of_nodup_map h.nodup_ids (hperm.mem_iff.mp ha) (List.mem_reverse.mp hb) hid

/-- A read gives the last messages. -/
theorem getMessages_eq (h : Saved ms) : getMessages ms limit = ms.drop (ms.length - limit) := by
  rw [getMessages, mergeSort_newestFirst h, List.reverse_take, List.reverse_reverse, List.length_reverse]

theorem splitHistory_fst : (splitHistory c ms).1 = ms.take (ms.length - window c) := by
  unfold splitHistory
  split
  · next h => rw [Nat.sub_eq_zero_of_le h, List.take_zero]
  · rfl

/-- The history that a turn reads ends what was said. -/
theorem said_eq (s : Session) : ∃ unread, s.said =
    unread ++ (getMessages s.messages defaultLimit).filter Session.inHistory ∧
      ∀ m ∈ unread, m ∉ getMessages s.messages defaultLimit := by
  refine ⟨(s.messages.take (s.messages.length - defaultLimit)).filter Session.inHistory, ?_, ?_⟩
  · rw [getMessages_eq s.ordered, ← List.filter_append, List.take_append_drop, Session.said]
  · intro m hm hread
    rw [getMessages_eq s.ordered] at hread
    have hnodup : s.messages.Nodup := List.Nodup.of_map _ (Saved.nodup_ids s.ordered)
    rw [← List.take_append_drop (s.messages.length - defaultLimit) s.messages] at hnodup
    exact List.disjoint_of_nodup_append hnodup (List.mem_of_mem_filter hm) hread

end Reading

/-- What a list of entries holds, up to a message and for a number of messages. -/
structure Notes (upto n : ℕ) (es : List Entry) : Prop where
  some : es ≠ []
  lines : ∀ e ∈ es, ∃ ch rest, e.text = ch :: rest ∧ isSpace ch = false
  sum : (es.map Entry.messages).sum = n
  increasing : es.Pairwise fun a b => a.uptoId < b.uptoId
  last : ∀ e ∈ es, e.uptoId ≤ upto

/-- What the stored summary says of the messages that note calls were about. -/
structure Kept (sum : Summary) (noted : List Message) : Prop where
  text : sum.text ≠ []
  upto : noted.getLast?.map Message.id = some sum.uptoId
  messages : sum.messages = noted.length
  notes : Notes sum.uptoId noted.length sum.entries

section Entries

theorem load_eq (h : Kept sum ms) : load (some sum) = some sum := by
  have hfilter : sum.entries.filter (fun e => e.text ≠ []) = sum.entries := by
    rw [List.filter_eq_self]
    intro e he
    obtain ⟨ch, rest, htext, -⟩ := h.notes.lines e he
    simp [htext]
  simp only [load, if_neg h.text, hfilter, if_neg h.notes.some]

theorem rstrip_cons {ch : Char} (rest : List Char) (h : isSpace ch = false) :
    ∃ rest', rstrip (ch :: rest) = ch :: rest' := by
  have hne : rstrip (ch :: rest) ≠ [] := by
    rw [rstrip, Ne, List.rdropWhile_eq_nil_iff]
    exact fun hall => absurd (hall ch List.mem_cons_self) (by simp [h])
  obtain ⟨ch', rest', heq⟩ := List.exists_cons_of_ne_nil hne
  obtain ⟨suffix, hsuffix⟩ := List.rdropWhile_prefix isSpace (ch :: rest)
  rw [← rstrip, heq] at hsuffix
  exact ⟨rest', (List.cons.inj hsuffix).1 ▸ heq⟩

theorem cut_ne_nil (h : text ≠ []) : cut limit text ≠ [] := by
  unfold cut
  split
  · simp
  · exact h

theorem join_ne_nil (h : es ≠ []) : join es ≠ [] := by
  obtain ⟨e, es, rfl⟩ := List.exists_cons_of_ne_nil h
  cases es <;> simp [join, List.intercalate]

theorem mergeOldest_line (h : es ≠ []) (hlines : ∀ e ∈ es, ∃ ch rest, e.text = ch :: rest ∧ isSpace ch = false) :
    ∃ ch rest, (mergeOldest c es merged).text = ch :: rest ∧ isSpace ch = false := by
  cases merged with
  | ok note => exact note.stripped
  | error err =>
    obtain ⟨e, es, rfl⟩ := List.exists_cons_of_ne_nil h
    obtain ⟨ch, rest, htext, hch⟩ := hlines e List.mem_cons_self
    have hcap : 120 ≤ noteCap c := Nat.le_max_left _ _
    obtain ⟨k, hk⟩ : ∃ k, noteCap c / 2 = k + 1 := ⟨noteCap c / 2 - 1, by omega⟩
    obtain ⟨k', hk'⟩ : ∃ k', noteCap c * 2 = k' + 1 := ⟨noteCap c * 2 - 1, by omega⟩
    obtain ⟨rest', hrest'⟩ := rstrip_cons (rest.take k) hch
    simp only [mergeOldest, hk, hk', List.map_cons, htext, List.take_succ_cons, hrest']
    cases es <;> simp [List.intercalate, hch]

theorem Notes.compact (h : Notes upto n es) : Notes upto n (compact c es merged) := by
  unfold ChatSummary.compact
  split
  · next hlong =>
    generalize hk : (es.length + 1) / 2 = k
    have hsplit := List.take_append_drop k es
    have hne : es.take k ≠ [] := by
      rw [Ne, List.take_eq_nil_iff, not_or]
      exact ⟨by omega, h.some⟩
    obtain ⟨init, last, holdest⟩ := (List.eq_nil_or_concat' (es.take k)).resolve_left hne
    have hlast : last ∈ es := List.mem_of_mem_take (holdest ▸ List.mem_concat_self)
    have hupto : (mergeOldest c (es.take k) merged).uptoId = last.uptoId := by
      simp [mergeOldest, holdest]
    have hincreasing := h.increasing
    rw [← hsplit, List.pairwise_append] at hincreasing
    refine ⟨by simp, ?_, ?_, ?_, ?_⟩
    · rw [List.forall_mem_cons]
      exact ⟨mergeOldest_line hne fun e he => h.lines e (List.mem_of_mem_take he),
        fun e he => h.lines e (List.mem_of_mem_drop he)⟩
    · have hmerged : (mergeOldest c (es.take k) merged).messages = ((es.take k).map Entry.messages).sum := rfl
      rw [List.map_cons, List.sum_cons, hmerged, ← List.sum_append, ← List.map_append, hsplit]
      exact h.sum
    · rw [List.pairwise_cons]
      refine ⟨fun e he => ?_, hincreasing.2.1⟩
      rw [hupto]
      exact hincreasing.2.2 last (holdest ▸ List.mem_concat_self) e he
    · rw [List.forall_mem_cons, hupto]
      exact ⟨h.last last hlast, fun e he => h.last e (List.mem_of_mem_drop he)⟩
  · exact h

theorem Notes.concat {k : ℕ} (h : Notes upto n es) (hupto : upto < k) {messages : ℕ} (note : Note) :
    Notes k (n + messages) (es ++ [⟨k, messages, note.text⟩]) := by
  refine ⟨by simp, ?_, ?_, ?_, ?_⟩
  · rw [List.forall_mem_append, List.forall_mem_singleton]
    exact ⟨h.lines, note.stripped⟩
  · simp [h.sum]
  · rw [List.pairwise_append]
    refine ⟨h.increasing, List.pairwise_singleton _ _, fun e he x hx => ?_⟩
    rw [List.mem_singleton.mp hx]
    exact Nat.lt_of_le_of_lt (h.last e he) hupto
  · rw [List.forall_mem_append, List.forall_mem_singleton]
    exact ⟨fun e he => Nat.le_of_lt (Nat.lt_of_le_of_lt (h.last e he) hupto), Nat.le_refl k⟩

theorem notes_singleton {k messages : ℕ} (note : Note) : Notes k messages [⟨k, messages, note.text⟩] := by
  refine ⟨by simp, ?_, by simp, List.pairwise_singleton _ _, by simp⟩
  rw [List.forall_mem_singleton]
  exact note.stripped

theorem lastId_concat (h : Saved (ms ++ [m])) : lastId (ms ++ [m]) = m.id := by
  induction ms with
  | nil => exact Nat.max_zero m.id
  | cons x ms ih =>
    obtain ⟨hx, hms⟩ := List.pairwise_cons.mp h
    have hlt : x.id < m.id := (hx m (List.mem_append_right _ List.mem_cons_self)).1
    rw [List.cons_append, lastId, List.foldr_cons, ← lastId, ih hms]
    exact Nat.max_eq_right (Nat.le_of_lt hlt)

end Entries

/-- The stored summary and the messages that note calls were about. -/
def Holds : Option Summary → List Message → Prop
  | none, noted => noted = []
  | some sum, noted => Kept sum noted

section Noted

variable {state : Option Summary}

theorem Holds.load_eq (h : Holds state seen) : load state = state := by
  cases state with
  | none => rfl
  | some sum => exact ChatSummary.load_eq h

/-- What is new to the summary is what came after the messages it covers. -/
theorem Holds.unnoted_eq (h : Holds state seen) (hsaved : Saved (seen ++ new)) :
    unnoted state (seen ++ new) = new := by
  cases state with
  | none =>
    obtain rfl : seen = [] := h
    simp [unnoted]
  | some sum =>
    obtain ⟨init, last, hseen⟩ : ∃ init last, seen = init ++ [last] := by
      refine (List.eq_nil_or_concat' seen).resolve_left fun hnil => ?_
      have hupto := h.upto
      simp [hnil] at hupto
    have hlast : last.id = sum.uptoId := by simpa [hseen] using h.upto
    obtain ⟨hsaved', -, hafter⟩ := List.pairwise_append.mp hsaved
    rw [hseen, List.pairwise_append] at hsaved'
    have hold : unnoted (some sum) seen = [] := by
      rw [unnoted, List.filter_eq_nil_iff]
      intro m hm
      rw [hseen, List.mem_append, List.mem_singleton] at hm
      rcases hm with hm | rfl
      · have hlt := (hsaved'.2.2 m hm last List.mem_cons_self).1
        simp only [Option.all_some, decide_eq_true_eq]
        omega
      · simp [hlast]
    have hnew : unnoted (some sum) new = new := by
      rw [unnoted, List.filter_eq_self]
      intro m hm
      have hlt := (hafter last (hseen ▸ List.mem_append_right _ List.mem_cons_self) m hm).1
      simp only [Option.all_some, decide_eq_true_eq]
      omega
    rw [unnoted] at hold hnew ⊢
    rw [List.filter_append, hold, hnew, List.nil_append]

/-- One more note covers what is new. -/
theorem Holds.withNote (h : Holds state seen) (hsaved : Saved (seen ++ new)) (hnew : new ≠ [])
    {unread read : List Message} (hread : unread ++ read = seen ++ new) (hne : read ≠ [])
    (hunnoted : unnoted state read = new) (note : Note) (merged : Except String Note) :
    Kept (withNote c state read note merged) (seen ++ new) := by
  obtain ⟨new, last, rfl⟩ := (List.eq_nil_or_concat' new).resolve_left hnew
  obtain ⟨read, last', rfl⟩ := (List.eq_nil_or_concat' read).resolve_left hne
  obtain rfl : last' = last := by simpa using congrArg List.getLast? hread
  have hsaved' : Saved (unread ++ (read ++ [last'])) := hread ▸ hsaved
  have hreadId : lastId (read ++ [last']) = last'.id := lastId_concat (List.pairwise_append.mp hsaved').2.1
  have hnewId : lastId (new ++ [last']) = last'.id := lastId_concat (List.pairwise_append.mp hsaved).2.1
  have hnotes : Notes last'.id (seen ++ (new ++ [last'])).length ((state.map Summary.entries).getD [] ++
      [⟨last'.id, (new ++ [last']).length, note.text⟩]) := by
    rw [List.length_append]
    cases state with
    | none =>
      obtain rfl : seen = [] := h
      rw [List.length_nil, Nat.zero_add]
      exact notes_singleton note
    | some sum =>
      refine Notes.concat h.notes ?_ note
      obtain ⟨x, hx, hid⟩ := Option.map_eq_some_iff.mp h.upto
      rw [← hid]
      have hnewer := (List.pairwise_append.mp hsaved).2.2 x (List.mem_of_getLast? hx) last' (by simp)
      exact hnewer.1
  refine ⟨?_, ?_, ?_, ?_⟩
  · apply cut_ne_nil
    apply join_ne_nil
    rw [hunnoted, hnewId]
    exact hnotes.compact.some
  · simp [ChatSummary.withNote, hreadId]
  · cases state with
    | none =>
      obtain rfl : seen = [] := h
      simp [ChatSummary.withNote, hunnoted]
    | some sum => simp [ChatSummary.withNote, hunnoted, h.messages]
  · simp only [ChatSummary.withNote, hunnoted, hnewId, hreadId]
    exact hnotes.compact

end Noted

/-- A turn reads every message that left the window and that the summary does not cover yet. -/
def WithinReach (c : Settings) (s : Session) : Step → Prop
  | .turn _ _ => ∀ m ∈ unnoted s.summary (s.older c), m ∈ getMessages s.messages defaultLimit
  | .add _ _ _ => True

/-- The messages that left the window, each in the text of one successful note call, and what the
summary says of them. -/
structure Session.Covered (c : Settings) (s : Session) (sum : Summary) : Prop where
  stored : s.summary = some sum
  noted : s.noted.flatten = s.older c
  once : ∀ m ∈ s.older c, s.noted.flatten.count m = 1
  upto : (s.older c).getLast?.map Message.id = some sum.uptoId
  messages : sum.messages = (s.older c).length
  entries : (sum.entries.map Entry.messages).sum = sum.messages
  increasing : sum.entries.Pairwise fun a b => a.uptoId < b.uptoId

structure Sound (c : Settings) (s : Session) : Prop where
  noted : s.noted.flatten <+: s.older c
  holds : Holds s.summary s.noted.flatten

section Steps

theorem saved_said (s : Session) : Saved s.said := s.ordered.sublist List.filter_sublist

theorem saved_older (c : Settings) (s : Session) : Saved (s.older c) :=
  (saved_said s).sublist (List.take_sublist _ _)

/-- What left the window stays out of it. -/
theorem older_add (c : Settings) (s : Session) (ids time : ℕ) (role : Role) :
    s.older c <+: (s.add ids time role).older c := by
  have hsaid : s.said <+: (s.add ids time role).said := by
    rw [Session.said, Session.said, Session.add, List.filter_append]
    exact List.prefix_append _ _
  rw [Session.older, Session.older, List.prefix_take_iff]
  refine ⟨(List.take_prefix _ _).trans hsaid, ?_⟩
  have hlen := hsaid.length_le
  rw [List.length_take]
  omega

theorem Sound.add (h : Sound c s) (ids time : ℕ) (role : Role) : Sound c (s.add ids time role) :=
  ⟨h.noted.trans (older_add c s ids time role), h.holds⟩

theorem olderHistory_eq (c : Settings) (s : Session) :
    s.olderHistory c = ((getMessages s.messages defaultLimit).filter Session.inHistory).take
      (((getMessages s.messages defaultLimit).filter Session.inHistory).length - window c) :=
  splitHistory_fst

/-- A turn that reads some of what left the window reads all that is new in it. -/
theorem read_new (hguard : WithinReach c s (.turn note merged)) (hread : s.olderHistory c ≠ []) :
    ∃ unread, unread ++ s.olderHistory c = s.older c ∧
      unnoted s.summary (s.olderHistory c) = unnoted s.summary (s.older c) := by
  obtain ⟨unread, hsaid, hunread⟩ := said_eq s
  generalize hhistory : (getMessages s.messages defaultLimit).filter Session.inHistory = history at hsaid
  have hcode : s.olderHistory c = history.take (history.length - window c) := by
    rw [olderHistory_eq, hhistory]
  have hlen : window c < history.length := by
    by_contra hle
    rw [hcode, Nat.sub_eq_zero_of_le (by omega), List.take_zero] at hread
    exact hread rfl
  have holder : unread ++ s.olderHistory c = s.older c := by
    have hcount : unread.length + history.length - window c = unread.length + (history.length - window c) := by
      omega
    rw [Session.older, hsaid, hcode, List.length_append, hcount, List.take_length_add_append]
  refine ⟨unread, holder, ?_⟩
  have hnone : unnoted s.summary unread = [] := by
    rw [List.eq_nil_iff_forall_not_mem]
    intro m hm
    refine hunread m (List.mem_of_mem_filter hm) (hguard m ?_)
    rw [← holder, unnoted, List.filter_append]
    exact List.mem_append_left _ hm
  rw [unnoted] at hnone ⊢
  rw [← holder, unnoted, List.filter_append, hnone, List.nil_append]

/-- A turn leaves the summary as it is, or covers what left the window with one more note. -/
theorem Sound.turn (h : Sound c s) (hguard : WithinReach c s (.turn note merged)) :
    ((s.turn c note merged).1.created = false ∧ (s.turn c note merged).2 = s) ∨
      ((s.turn c note merged).1.error = none ∧ (s.turn c note merged).2.messages = s.messages ∧
        (s.turn c note merged).2.noted.flatten = s.older c ∧
        ∃ sum, (s.turn c note merged).2.summary = some sum ∧ Kept sum (s.older c)) := by
  unfold Session.turn
  split
  · next hread =>
    obtain ⟨unread, holder, hnew⟩ := read_new hguard hread.1
    obtain ⟨new, hsplit⟩ := h.noted
    have hunnoted : unnoted s.summary (s.older c) = new := by
      rw [← hsplit]
      exact h.holds.unnoted_eq (hsplit ▸ saved_older c s)
    rw [hunnoted] at hnew
    unfold ensureSummary
    rw [if_neg hread.1, h.holds.load_eq]
    split
    · exact Or.inl ⟨rfl, rfl⟩
    · next hsome =>
      cases note with
      | error e => exact Or.inl ⟨rfl, rfl⟩
      | ok note =>
        right
        have hne : new ≠ [] := by
          rintro rfl
          cases hsummary : s.summary with
          | none =>
            rw [hsummary] at hnew
            exact hread.1 (by simpa [unnoted] using hnew)
          | some sum => exact hsome ⟨by simp [hsummary], hnew⟩
        refine ⟨rfl, rfl, ?_, _, rfl, ?_⟩
        · simp [hnew, hsplit]
        · rw [← hsplit]
          exact h.holds.withNote (hsplit ▸ saved_older c s) hne (holder.trans hsplit.symm) hread.1 hnew note merged
  · exact Or.inl ⟨rfl, rfl⟩

theorem older_congr {t : Session} (h : t.messages = s.messages) : t.older c = s.older c := by
  rw [Session.older, Session.older, Session.said, Session.said, h]

theorem Sound.step (h : Sound c s) (hguard : WithinReach c s a) : Sound c (step c s a) := by
  cases a with
  | add ids time role => exact h.add ids time role
  | turn note merged =>
    rw [ChatSummary.step]
    rcases h.turn hguard with ⟨-, hsame⟩ | ⟨-, hmessages, hnoted, sum, hsum, hkept⟩
    · rwa [hsame]
    · constructor
      · exact ⟨[], by rw [List.append_nil, hnoted, older_congr hmessages]⟩
      · rw [hsum, hnoted]
        exact hkept

theorem sound_empty (c : Settings) : Sound c Session.empty := ⟨List.nil_prefix, rfl⟩

theorem covered_of_kept (hnoted : s.noted.flatten = s.older c) (hsum : s.summary = some sum)
    (h : Kept sum (s.older c)) : s.Covered c sum := by
  refine ⟨hsum, hnoted, fun m hm => ?_, h.upto, h.messages, ?_, h.notes.increasing⟩
  · have hnodup : (s.older c).Nodup := List.Nodup.of_map _ (Saved.nodup_ids (saved_older c s))
    rw [hnoted]
    exact List.count_eq_one_of_mem hnodup hm
  · rw [h.notes.sum, h.messages]

end Steps

/-- In a run whose turns read back to the first message that the notes do not cover, a turn that
writes a note covers all that left the window, and one that fails leaves the summary as it was. -/
theorem summary_covers (c : Settings) (as : List Step) (note merged : Except String Note)
    (h : Along (step c) (WithinReach c) Session.empty (as ++ [Step.turn note merged])) :
    (((exec (step c) Session.empty as).turn c note merged).1.created = true →
      ∃ sum, ((exec (step c) Session.empty as).turn c note merged).2.Covered c sum) ∧
    (((exec (step c) Session.empty as).turn c note merged).1.error ≠ none →
      ((exec (step c) Session.empty as).turn c note merged).2.summary =
        (exec (step c) Session.empty as).summary) := by
  obtain ⟨hrun, hguard, -⟩ := along_append.mp h
  have hsound := exec_invariant (fun _ _ => Sound.step) (sound_empty c) hrun
  rcases hsound.turn hguard with ⟨hcreated, hsame⟩ | ⟨herror, hmessages, hnoted, sum, hsum, hkept⟩
  · rw [hcreated, hsame]
    exact ⟨by simp, fun _ => rfl⟩
  · refine ⟨fun _ => ⟨sum, ?_⟩, fun hfailed => absurd herror hfailed⟩
    rw [← older_congr hmessages] at hnoted hkept
    exact covered_of_kept hnoted hsum hkept

theorem withinReach_of_short (h : s.messages.length ≤ defaultLimit) : WithinReach c s (.turn note merged) := by
  intro m hm
  rw [getMessages_eq s.ordered, Nat.sub_eq_zero_of_le h, List.drop_zero]
  exact List.mem_of_mem_filter (List.mem_of_mem_take (List.mem_of_mem_filter hm))

/-- The first note is about all the messages that the turn reads and does not show. -/
theorem turn_first (hsummary : s.summary = none) (hnoted : s.noted = []) (hread : s.olderHistory c ≠ [])
    (henabled : c.chatSummaryEnabled = true) (note : Note) (merged : Except String Note) :
    (s.turn c (.ok note) merged).1.created = true ∧
      (s.turn c (.ok note) merged).2.noted.flatten = s.olderHistory c := by
  simp [Session.turn, ensureSummary, hread, henabled, hsummary, hnoted, load, unnoted]

theorem turn_messages : (s.turn c note merged).2.messages = s.messages := by
  unfold Session.turn
  split <;> rfl

def defaultSettings : Settings := ⟨10, 1500, true⟩

def briefNote : Note := ⟨['n'], 'n', [], rfl, rfl⟩

/-- So many messages of the user. -/
def talk (n : ℕ) : List Step := List.replicate n (.add 0 0 .user)

theorem summary_covers_talk : ∃ sum, ((exec (step defaultSettings) Session.empty (talk 12)).turn defaultSettings
    (.ok briefNote) (.ok briefNote)).2.Covered defaultSettings sum := by
  have hlen : (exec (step defaultSettings) Session.empty (talk 12)).messages.length ≤ defaultLimit := by decide
  have hrun : Along (step defaultSettings) (WithinReach defaultSettings) Session.empty
      (talk 12 ++ [Step.turn (.ok briefNote) (.ok briefNote)]) := by
    rw [along_append]
    exact ⟨⟨trivial, trivial, trivial, trivial, trivial, trivial, trivial, trivial, trivial, trivial, trivial,
      trivial, trivial⟩, withinReach_of_short hlen, trivial⟩
  refine (summary_covers defaultSettings (talk 12) (.ok briefNote) (.ok briefNote) hrun).1 ?_
  refine (turn_first rfl rfl ?_ rfl briefNote (.ok briefNote)).1
  rw [olderHistory_eq, getMessages_eq (Session.ordered _)]
  decide

/-- A note after a hundred and three messages leaves the first three out for good. -/
theorem summary_forgets : ((exec (step defaultSettings) Session.empty (talk 103)).turn defaultSettings
      (.ok briefNote) (.ok briefNote)).1.created = true ∧
    ¬∃ sum, ((exec (step defaultSettings) Session.empty (talk 103)).turn defaultSettings
      (.ok briefNote) (.ok briefNote)).2.Covered defaultSettings sum := by
  have hlen : ((exec (step defaultSettings) Session.empty (talk 103)).olderHistory defaultSettings).length = 90 := by
    rw [olderHistory_eq, getMessages_eq (Session.ordered _)]
    decide +kernel
  have hne : (exec (step defaultSettings) Session.empty (talk 103)).olderHistory defaultSettings ≠ [] := by
    rw [← List.length_pos_iff_ne_nil, hlen]
    decide
  obtain ⟨hcreated, hnoted⟩ := turn_first rfl rfl hne rfl briefNote (.ok briefNote)
  refine ⟨hcreated, ?_⟩
  rintro ⟨sum, h⟩
  have hall : ((exec (step defaultSettings) Session.empty (talk 103)).older defaultSettings).length = 93 := by
    decide +kernel
  have hmessages : ((exec (step defaultSettings) Session.empty (talk 103)).turn defaultSettings
      (.ok briefNote) (.ok briefNote)).2.messages =
    (exec (step defaultSettings) Session.empty (talk 103)).messages := turn_messages
  rw [← older_congr hmessages, ← h.noted, hnoted, hlen] at hall
  cases hall

end Kubeast.ChatSummary
