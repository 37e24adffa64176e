import Kubeast.Foundation.Keyed
import Mathlib.Algebra.Order.Ring.Int
import Mathlib.Data.List.Dedup
import Mathlib.Data.List.Induction
import Mathlib.Data.List.Perm.Subperm

/-! Where webhook deliveries come from (`webhook/handler.go`, `webhook/ranges.go`): the count of each source in a
minute, and GitHub's own list of addresses. -/
namespace Kubeast.Webhook
open Keyed

variable {A P : Type*} [DecidableEq A] [DecidableEq P]

section Limit

/-- `time.Minute`, in nanoseconds. -/
def minute : ℤ := 60000000000

/-- `counts` is nil where there is no window yet. -/
structure SourceLimit (A : Type*) where
  perMinute : ℤ
  maxSources : ℤ
  window : Option ℤ
  counts : List (A × ℤ)
  others : ℤ

def defaultMaxSources : ℤ := 10000

def newSourceLimit (perMinute : ℤ) : SourceLimit A := ⟨perMinute, defaultMaxSources, none, [], 0⟩

namespace SourceLimit

/-- A new minute starts all counts over. -/
def roll (l : SourceLimit A) (now : ℤ) : SourceLimit A :=
  if l.window = some (now / minute) then l else { l with window := some (now / minute), counts := [], others := 0 }

def count (l : SourceLimit A) (a : A) : SourceLimit A × Bool :=
  if (l.counts.lookup a).isNone ∧ l.maxSources ≤ l.counts.length then
    ({ l with others := l.others + 1 }, l.others + 1 ≤ l.perMinute)
  else
    let n := (l.counts.lookup a).getD 0 + 1
    ({ l with counts := put l.counts a n }, n ≤ l.perMinute)

def allow (l : SourceLimit A) (a : A) (now : ℤ) : SourceLimit A × Bool :=
  if l.perMinute ≤ 0 then (l, true) else (l.roll now).count a

/-- One delivery after the other, with what each was told. -/
def serve (l : SourceLimit A) (calls : List (A × ℤ)) : SourceLimit A × List ((A × ℤ) × Bool) :=
  calls.foldl (fun acc c => ((acc.1.allow c.1 c.2).1, acc.2 ++ [(c, (acc.1.allow c.1 c.2).2)])) (l, [])

end SourceLimit

/-- The deliveries of a minute, with what each was told. -/
def minuteOf (log : List ((A × ℤ) × Bool)) (now : ℤ) : List (A × Bool) :=
  (log.filter fun e => e.1.2 / minute = now / minute).map fun e => (e.1.1, e.2)

/-- The counts are those of the deliveries of the minute. A source that has none came when the table was full. -/
structure Tallied (l : SourceLimit A) (told : List (A × Bool)) : Prop where
  keys : (l.counts.map Prod.fst).Nodup
  room : l.counts.length ≤ l.maxSources
  counted : ∀ a n, (a, n) ∈ l.counts →
    0 < n ∧ n = (told.map Prod.fst).count a ∧ told.count (a, true) = min n l.perMinute
  full : ∀ a ∈ told.map Prod.fst, a ∉ l.counts.map Prod.fst → l.maxSources ≤ l.counts.length
  others : 0 ≤ l.others ∧
    (told.countP fun e => decide (e.1 ∉ l.counts.map Prod.fst) && e.2) ≤ min l.others l.perMinute

variable {l : SourceLimit A} {told : List (A × Bool)} {a k : A} {n now t : ℤ}

omit [DecidableEq A] in
theorem roll_settings (l : SourceLimit A) (now : ℤ) :
    (l.roll now).perMinute = l.perMinute ∧ (l.roll now).maxSources = l.maxSources ∧
      (l.roll now).window = some (now / minute) := by
  unfold SourceLimit.roll
  split_ifs with h
  · exact ⟨rfl, rfl, h⟩
  · exact ⟨rfl, rfl, rfl⟩

theorem count_settings (l : SourceLimit A) (a : A) :
    (l.count a).1.perMinute = l.perMinute ∧ (l.count a).1.maxSources = l.maxSources ∧
      (l.count a).1.window = l.window := by
  unfold SourceLimit.count
  split_ifs
  · exact ⟨rfl, rfl, rfl⟩
  · exact ⟨rfl, rfl, rfl⟩

theorem allow_eq (h : 0 < l.perMinute) : l.allow a now = (l.roll now).count a := if_neg (not_le.mpr h)

theorem mem_put {counts : List (A × ℤ)} (hkeys : (counts.map Prod.fst).Nodup) {m : ℤ} :
    (k, m) ∈ put counts a n ↔ k = a ∧ m = n ∨ k ≠ a ∧ (k, m) ∈ counts := by
  rw [mem_iff_lookup (nodup_put hkeys), mem_iff_lookup hkeys]
  by_cases hk : k = a
  · subst hk
    rw [lookup_put_self]
    simp [eq_comm]
  · rw [lookup_put_ne hk]
    simp [hk]

theorem keys_put_of_mem {counts : List (A × ℤ)} (h : a ∈ counts.map Prod.fst) :
    (put counts a n).map Prod.fst = counts.map Prod.fst := by
  have hsome : (counts.lookup a).isSome := by
    rw [Option.isSome_iff_ne_none, ne_eq, lookup_eq_none, not_not]
    exact h
  rw [put, if_pos hsome, List.map_map]
  refine List.map_congr_left fun m _ => ?_
  rw [Function.comp_apply]
  split_ifs with hm
  · exact hm.symm
  · rfl

theorem put_of_notMem {counts : List (A × ℤ)} (h : a ∉ counts.map Prod.fst) : put counts a n = counts ++ [(a, n)] := by
  rw [put, lookup_eq_none.mpr h]
  rfl

/-- The source is new, and there is no room for it. -/
theorem Tallied.count_other (h : Tallied l told) (ha : a ∉ l.counts.map Prod.fst)
    (hfull : l.maxSources ≤ l.counts.length) : Tallied (l.count a).1 (told ++ [(a, (l.count a).2)]) := by
  have hnew : l.count a = ({ l with others := l.others + 1 }, decide (l.others + 1 ≤ l.perMinute)) := by
    rw [SourceLimit.count, lookup_eq_none.mpr ha, if_pos ⟨rfl, hfull⟩]
  rw [hnew]
  refine ⟨h.keys, h.room, fun k n hk => ?_, fun _ _ _ => hfull, ?_⟩
  · obtain ⟨hpos, hn, htold⟩ := h.counted k n hk
    have hne : a ≠ k := fun heq => ha (heq ▸ List.mem_map_of_mem hk)
    rw [List.map_append, List.count_append, List.count_append]
    simpa [hne] using ⟨hpos, hn, htold⟩
  · obtain ⟨hothers, hle⟩ := h.others
    rw [List.countP_append, List.countP_singleton]
    dsimp only
    refine ⟨by omega, ?_⟩
    by_cases hfits : l.others + 1 ≤ l.perMinute
    · simp only [ha, not_false_eq_true, decide_true, hfits, Bool.and_self, if_true]
      omega
    · simp only [hfits, decide_false, Bool.and_false, Bool.false_eq_true, if_false]
      omega

/-- The source has a count. -/
theorem Tallied.count_known (h : Tallied l told) (ha : (a, n) ∈ l.counts) :
    Tallied (l.count a).1 (told ++ [(a, (l.count a).2)]) ∧ (l.count a).2 = decide (n + 1 ≤ l.perMinute) := by
  have hlookup := lookup_of_mem h.keys ha
  have hmem : a ∈ l.counts.map Prod.fst := List.mem_map_of_mem ha
  have hcount : l.count a = ({ l with counts := put l.counts a (n + 1) }, decide (n + 1 ≤ l.perMinute)) := by
    rw [SourceLimit.count, hlookup, if_neg (by simp)]
    rfl
  rw [hcount]
  refine ⟨⟨nodup_put h.keys, ?_, fun k m hk => ?_, fun x hx hnot => ?_, ?_⟩, rfl⟩
  · have hlength := congrArg List.length (keys_put_of_mem (n := n + 1) hmem)
    rw [List.length_map, List.length_map] at hlength
    dsimp only
    rw [hlength]
    exact h.room
  · rw [List.map_append, List.count_append, List.count_append]
    rcases (mem_put h.keys).mp hk with ⟨rfl, rfl⟩ | ⟨hne, hk⟩
    · obtain ⟨hpos, hn, htold⟩ := h.counted k n ha
      by_cases hfits : n + 1 ≤ l.perMinute
      · simp [hfits]
        omega
      · simp [hfits]
        omega
    · obtain ⟨hpos, hn, htold⟩ := h.counted k m hk
      simpa [hne.symm] using ⟨hpos, hn, htold⟩
  · dsimp only at hnot ⊢
    rw [keys_put_of_mem hmem] at hnot
    have hlength := congrArg List.length (keys_put_of_mem (n := n + 1) hmem)
    rw [List.length_map, List.length_map] at hlength
    rw [hlength]
    rw [List.map_append, List.mem_append] at hx
    rcases hx with hx | hx
    · exact h.full x hx hnot
    · rw [List.mem_singleton.mp hx] at hnot
      exact absurd hmem hnot
  · dsimp only
    rw [keys_put_of_mem hmem, List.countP_append, List.countP_singleton]
    simpa [hmem] using h.others

/-- The source is new, and there is room. -/
theorem Tallied.count_new (h : Tallied l told) (hper : 0 < l.perMinute) (ha : a ∉ l.counts.map Prod.fst)
    (hroom : l.counts.length < l.maxSources) :
    Tallied (l.count a).1 (told ++ [(a, (l.count a).2)]) ∧ (l.count a).2 = true ∧ a ∉ told.map Prod.fst := by
  have hfirst : a ∉ told.map Prod.fst := fun hmem => absurd (h.full a hmem ha) (not_le.mpr hroom)
  have hone : 0 + 1 ≤ l.perMinute := by omega
  have hcount : l.count a = ({ l with counts := l.counts ++ [(a, 1)] }, true) := by
    rw [SourceLimit.count, lookup_eq_none.mpr ha, if_neg (by simp [hroom])]
    dsimp only [Option.getD_none]
    rw [put_of_notMem ha, decide_eq_true hone]
    rfl
  rw [hcount]
  have hkeys : ((l.counts ++ [(a, (1 : ℤ))]).map Prod.fst) = l.counts.map Prod.fst ++ [a] := by simp
  refine ⟨⟨?_, ?_, fun k m hk => ?_, fun x _ _ => ?_, ?_⟩, rfl, hfirst⟩
  · dsimp only
    rw [hkeys]
    exact List.nodup_append.mpr ⟨h.keys, List.nodup_singleton a, fun x hx y hy heq =>
      ha (List.mem_singleton.mp hy ▸ heq ▸ hx)⟩
  · simp
    omega
  · rw [List.map_append, List.count_append, List.count_append]
    rcases List.mem_append.mp hk with hk | hk
    · obtain ⟨hpos, hn, htold⟩ := h.counted k m hk
      have hne : a ≠ k := fun heq => ha (heq ▸ List.mem_map_of_mem hk)
      simpa [hne] using ⟨hpos, hn, htold⟩
    · obtain ⟨rfl, rfl⟩ := Prod.mk.inj (List.mem_singleton.mp hk)
      have hnone : told.count (k, true) = 0 := List.count_eq_zero.mpr fun hmem => hfirst (List.mem_map_of_mem hmem)
      rw [List.count_eq_zero.mpr hfirst, hnone]
      simp
      omega
  · rename_i hx hnot
    dsimp only at hnot ⊢
    rw [hkeys, List.mem_append, not_or] at hnot
    rw [List.map_append, List.mem_append] at hx
    rcases hx with hx | hx
    · exact absurd (h.full x hx hnot.1) (not_le.mpr hroom)
    · exact absurd hx hnot.2
  · obtain ⟨hothers, hle⟩ := h.others
    dsimp only
    rw [hkeys, List.countP_append, List.countP_singleton]
    refine ⟨hothers, ?_⟩
    have hsame : (told.countP fun e => decide (e.1 ∉ l.counts.map Prod.fst ++ [a]) && e.2) =
        told.countP fun e => decide (e.1 ∉ l.counts.map Prod.fst) && e.2 := by
      refine List.countP_congr fun e he => ?_
      have hne : e.1 ≠ a := fun heq => hfirst (heq ▸ List.mem_map_of_mem he)
      simp [hne]
    rw [hsame]
    simpa using hle

/-- One delivery of the minute. While no more sources send than the table holds, each has the whole limit. -/
theorem Tallied.step (h : Tallied l told) (hper : 0 < l.perMinute) (a : A) :
    Tallied (l.count a).1 (told ++ [(a, (l.count a).2)]) ∧
      (((a :: told.map Prod.fst).dedup.length : ℤ) ≤ l.maxSources →
        ((l.count a).2 = true ↔ (told.map Prod.fst).count a < l.perMinute)) := by
  by_cases ha : a ∈ l.counts.map Prod.fst
  · obtain ⟨⟨k, n⟩, hmem, rfl⟩ := List.mem_map.mp ha
    obtain ⟨htallied, hanswer⟩ := h.count_known hmem
    obtain ⟨-, hn, -⟩ := h.counted k n hmem
    refine ⟨htallied, fun _ => ?_⟩
    dsimp only
    rw [hanswer, decide_eq_true_iff, hn]
    omega
  · by_cases hroom : l.counts.length < l.maxSources
    · obtain ⟨htallied, hanswer, hfirst⟩ := h.count_new hper ha hroom
      refine ⟨htallied, fun _ => iff_of_true hanswer ?_⟩
      rw [List.count_eq_zero.mpr hfirst]
      exact hper
    · refine ⟨h.count_other ha (not_lt.mp hroom), fun hfew => absurd hfew (not_le.mpr ?_)⟩
      have hsub : a :: l.counts.map Prod.fst ⊆ (a :: told.map Prod.fst).dedup := by
        intro k hk
        rw [List.mem_dedup]
        rcases List.mem_cons.mp hk with rfl | hk
        · exact List.mem_cons_self
        · obtain ⟨⟨k, n⟩, hmem, rfl⟩ := List.mem_map.mp hk
          obtain ⟨hpos, hn, -⟩ := h.counted k n hmem
          have hcount : 0 < (told.map Prod.fst).count k := by omega
          exact List.mem_cons_of_mem _ (List.count_pos_iff.mp hcount)
      have hlength := (List.nodup_cons.mpr ⟨ha, h.keys⟩).length_le_of_subset hsub
      rw [List.length_cons, List.length_map] at hlength
      omega

theorem Tallied.count_le (h : Tallied l told) (k : A) : told.count (k, true) ≤ l.perMinute := by
  by_cases hk : k ∈ l.counts.map Prod.fst
  · obtain ⟨⟨k, n⟩, hmem, rfl⟩ := List.mem_map.mp hk
    rw [(h.counted k n hmem).2.2]
    exact min_le_right _ _
  · have hle : told.count (k, true) ≤ told.countP fun e => decide (e.1 ∉ l.counts.map Prod.fst) && e.2 := by
      refine List.countP_mono_left fun e _ he => ?_
      rw [beq_iff_eq.mp he, Bool.and_true, decide_eq_true_iff]
      exact hk
    exact (Int.ofNat_le.mpr hle).trans (h.others.2.trans (min_le_right _ _))

/-- A limit no source has been counted by. -/
def unused (perMinute maxSources : ℤ) : SourceLimit A := ⟨perMinute, maxSources, none, [], 0⟩

variable {per max : ℤ} {calls : List (A × ℤ)}

theorem Tallied.fresh (hmax : 0 ≤ max) (hper : 0 < per) (w : Option ℤ) :
    Tallied (⟨per, max, w, [], 0⟩ : SourceLimit A) [] := by
  refine ⟨List.nodup_nil, hmax, fun a n h => absurd h List.not_mem_nil, fun a h => absurd h List.not_mem_nil,
    le_rfl, ?_⟩
  exact le_min le_rfl hper.le

theorem serve_append (l : SourceLimit A) (c : A × ℤ) : l.serve (calls ++ [c]) =
    (((l.serve calls).1.allow c.1 c.2).1, (l.serve calls).2 ++ [(c, ((l.serve calls).1.allow c.1 c.2).2)]) := by
  unfold SourceLimit.serve
  rw [List.foldl_append]
  rfl

/-- The state that a run of deliveries leaves to one that comes no earlier. -/
theorem tallied_serve (hper : 0 < per) (hmax : 0 ≤ max) (hsorted : calls.Pairwise fun c d => c.2 ≤ d.2)
    (hlast : ∀ c ∈ calls, c.2 ≤ now) :
    ((unused per max).serve calls).1.perMinute = per ∧ ((unused per max).serve calls).1.maxSources = max ∧
      Tallied (((unused per max).serve calls).1.roll now) (minuteOf ((unused per max).serve calls).2 now) ∧
      ∀ e ∈ ((unused per max).serve calls).2, e.1 ∈ calls := by
  induction calls using List.reverseRecOn generalizing now with
  | nil =>
    refine ⟨rfl, rfl, ?_, fun e he => by cases he⟩
    have hroll : ((unused per max : SourceLimit A).serve []).1.roll now = ⟨per, max, some (now / minute), [], 0⟩ := rfl
    rw [hroll]
    exact .fresh hmax hper _
  | append_singleton calls c ih =>
    obtain ⟨hcalls, -, hbefore⟩ := List.pairwise_append.mp hsorted
    obtain ⟨hsamePer, hsameMax, htallied, hmem⟩ := ih hcalls fun d hd => hbefore d hd c (List.mem_singleton_self c)
    obtain ⟨a, t⟩ := c
    rw [serve_append]
    generalize (unused per max).serve calls = run at *
    obtain ⟨l, log⟩ := run
    have hperMinute : 0 < (l.roll t).perMinute := by rw [(roll_settings l t).1, hsamePer]; exact hper
    have hstep := (htallied.step hperMinute a).1
    obtain ⟨hrollPer, hrollMax, hrollWindow⟩ := roll_settings l t
    obtain ⟨hcountPer, hcountMax, hcountWindow⟩ := count_settings (l.roll t) a
    dsimp only at *
    rw [allow_eq (hsamePer ▸ hper)]
    refine ⟨hcountPer.trans (hrollPer.trans hsamePer), hcountMax.trans (hrollMax.trans hsameMax), ?_, ?_⟩
    · by_cases hsame : now / minute = t / minute
      · have hstays : ((l.roll t).count a).1.roll now = ((l.roll t).count a).1 := by
          rw [SourceLimit.roll, hsame, hcountWindow, hrollWindow, if_pos rfl]
        have hlog : minuteOf (log ++ [((a, t), ((l.roll t).count a).2)]) now =
            minuteOf log t ++ [(a, ((l.roll t).count a).2)] := by
          unfold minuteOf
          rw [hsame, List.filter_append, List.filter_cons_of_pos (by simp), List.map_append]
          rfl
        rw [hstays, hlog]
        exact hstep
      · have hle := hlast (a, t) (by simp)
        have hlt : t / minute < now / minute :=
          lt_of_le_of_ne (Int.ediv_le_ediv (by decide) hle) (Ne.symm hsame)
        have hreset : ((l.roll t).count a).1.roll now = ⟨per, max, some (now / minute), [], 0⟩ := by
          rw [SourceLimit.roll, hcountWindow, hrollWindow, if_neg fun h => hsame (Option.some.inj h).symm,
            hcountPer, hrollPer, hsamePer, hcountMax, hrollMax, hsameMax]
        have hlog : minuteOf (log ++ [((a, t), ((l.roll t).count a).2)]) now = [] := by
          refine List.map_eq_nil_iff.mpr (List.filter_eq_nil_iff.mpr fun e he => ?_)
          have htime : e.1.2 ≤ t := by
            rcases List.mem_append.mp he with he | he
            · exact hbefore e.1 (hmem e he) _ (List.mem_singleton_self _)
            · rw [List.mem_singleton.mp he]
          have hearly : e.1.2 / minute ≤ t / minute := Int.ediv_le_ediv (by decide) htime
          rw [decide_eq_true_iff]
          omega
        rw [hreset, hlog]
        exact .fresh hmax hper _
    · intro e he
      rcases List.mem_append.mp he with he | he
      · exact List.mem_append_left _ (hmem e he)
      · rw [List.mem_singleton.mp he]
        exact List.mem_append_right _ (List.mem_singleton_self _)

/-- The table does not outgrow its bound, one source is let through no more often in a minute than the limit says,
and as long as the sources of the minute fit the table each is let through as often as that. -/
theorem source_limit (hper : 0 < per) (hmax : 0 ≤ max) (hsorted : (calls ++ [(a, now)]).Pairwise fun c d => c.2 ≤ d.2) :
    let run := (unused per max).serve calls
    let told := minuteOf run.2 now
    (run.1.allow a now).1.counts.length ≤ max ∧ (∀ k : A, told.count (k, true) ≤ per) ∧
      (((a :: told.map Prod.fst).dedup.length : ℤ) ≤ max →
        ((run.1.allow a now).2 = true ↔ (told.map Prod.fst).count a < per)) := by
  obtain ⟨hcalls, -, hlast⟩ := List.pairwise_append.mp hsorted
  obtain ⟨hsamePer, hsameMax, htallied, -⟩ :=
    tallied_serve hper hmax hcalls fun c hc => hlast c hc (a, now) (List.mem_singleton_self _)
  generalize (unused per max).serve calls = run at *
  obtain ⟨l, log⟩ := run
  obtain ⟨hrollPer, hrollMax, -⟩ := roll_settings l now
  dsimp only at *
  have hperMinute : 0 < (l.roll now).perMinute := by rw [hrollPer, hsamePer]; exact hper
  obtain ⟨hstep, hfew⟩ := htallied.step hperMinute a
  rw [allow_eq (hsamePer ▸ hper)]
  rw [hrollMax, hsameMax, hrollPer, hsamePer] at hfew
  refine ⟨?_, fun k => ?_, hfew⟩
  · have hroom := hstep.room
    rwa [(count_settings _ a).2.1, hrollMax, hsameMax] at hroom
  · have hle := htallied.count_le k
    rwa [hrollPer, hsamePer] at hle

/-- The third delivery of a source, at two a minute. -/
theorem source_limit_third :
    let run := (unused 2 1 : SourceLimit String).serve [("a", 0), ("a", 1)]
    let told := minuteOf run.2 2
    (run.1.allow "a" 2).1.counts.length ≤ (1 : ℤ) ∧ (∀ k : String, told.count (k, true) ≤ (2 : ℤ)) ∧
      ((("a" :: told.map Prod.fst).dedup.length : ℤ) ≤ 1 →
        ((run.1.allow "a" 2).2 = true ↔ (told.map Prod.fst).count "a" < (2 : ℤ))) :=
  source_limit (by decide) (by decide) (by decide)

end Limit

section Ranges

/-- GitHub's hook addresses as they were read last, with the tag of that answer and its `x-poll-interval`. -/
structure Ranges (P : Type*) where
  cur : Option (List P)
  etag : String
  wait : ℤ

/-- What a request of the list comes to. A body that `ParseMetaHooks` refuses has no hooks. -/
inductive Reply (P : Type*)
  | failed
  | status (poll : Option ℤ)
  | notModified (poll : Option ℤ)
  | ok (poll : Option ℤ) (etag : String) (hooks : Option (List P))

/-- The loop of `samePrefixes` over the second list. -/
def drain (seen : P → ℤ) : List P → Bool
  | [] => true
  | p :: ps => if seen p - 1 < 0 then false else drain (Function.update seen p (seen p - 1)) ps

def samePrefixes (a b : List P) : Bool :=
  if a.length ≠ b.length then false
  else drain (a.foldl (fun seen p => Function.update seen p (seen p + 1)) fun _ => 0) b

namespace Ranges

def new : Ranges P := ⟨none, "", 0⟩

/-- `If-None-Match`. -/
def condition (r : Ranges P) : Option String := if r.etag ≠ "" ∧ r.cur.isSome then some r.etag else none

/-- `X-Poll-Interval`, in seconds. -/
def waited (r : Ranges P) (poll : Option ℤ) : Ranges P :=
  { r with wait := (poll.filter fun s => 0 < s).elim r.wait (· * 1000000000) }

/-- `Refresh`: whether the list changed, none for an error. -/
def refresh (r : Ranges P) (ask : Option String → Reply P) : Ranges P × Option Bool :=
  match ask r.condition with
  | .failed => (r, none)
  | .status poll => (r.waited poll, none)
  | .notModified poll => (r.waited poll, some false)
  | .ok poll _ none => (r.waited poll, none)
  | .ok poll etag (some hooks) =>
    ({ r.waited poll with cur := some hooks, etag := etag }, some (r.cur.all fun old => !samePrefixes old hooks))

end Ranges

variable {a b ps : List P} {seen : P → ℤ} {p : P}

theorem foldl_seen : a.foldl (fun seen p => Function.update seen p (seen p + 1)) seen p = seen p + a.count p := by
  induction a generalizing seen with
  | nil => simp
  | cons x a ih =>
    rw [List.foldl_cons, ih, List.count_cons]
    by_cases hx : x = p
    · subst hx
      simp
      omega
    · simp [hx, Ne.symm hx]

theorem drain_iff : drain seen ps = true ↔ ∀ p ∈ ps, ps.count p ≤ seen p := by
  induction ps generalizing seen with
  | nil => exact iff_of_true rfl (List.forall_mem_nil _)
  | cons x ps ih =>
    rw [drain]
    split_ifs with hneg
    · refine iff_of_false id fun h => ?_
      have hx := h x List.mem_cons_self
      rw [List.count_cons_self] at hx
      omega
    · rw [ih]
      constructor
      · intro h p hp
        by_cases hx : p = x
        · subst hx
          rw [List.count_cons_self]
          by_cases hmem : p ∈ ps
          · have hp := h p hmem
            rw [Function.update_self] at hp
            omega
          · rw [List.count_eq_zero.mpr hmem]
            omega
        · have hp := h p ((List.mem_cons.mp hp).resolve_left hx)
          rwa [Function.update_of_ne hx, ← List.count_cons_of_ne (Ne.symm hx)] at hp
      · intro h p hp
        have hcount := h p (List.mem_cons_of_mem _ hp)
        by_cases hx : p = x
        · subst hx
          rw [List.count_cons_self] at hcount
          rw [Function.update_self]
          omega
        · rwa [Function.update_of_ne hx, ← List.count_cons_of_ne (Ne.symm hx)]

/-- The same ranges, in whatever order. -/
theorem samePrefixes_iff : samePrefixes a b = true ↔ a.Perm b := by
  unfold samePrefixes
  split_ifs with hlength
  · exact iff_of_false id fun h => hlength h.length_eq
  · rw [drain_iff]
    constructor
    · intro h
      have hsub : b.Subperm a := List.subperm_ext_iff.mpr fun p hp => by
        have hp := h p hp
        rw [foldl_seen, zero_add] at hp
        exact Int.ofNat_le.mp hp
      exact (hsub.perm_of_length_le (not_not.mp hlength).le).symm
    · intro h p _
      rw [foldl_seen, zero_add, h.count_eq]

/-- How a request can fail: before there is a status, or with one that has no list. -/
inductive Fault
  | unreachable
  | status
deriving DecidableEq

/-- What GitHub has when it is asked. -/
structure Turn (P : Type*) where
  etag : String
  hooks : Option (List P)
  poll : Option ℤ
  fault : Option Fault

/-- The answer: a tag that names what is there is answered without it. -/
def Turn.answer (t : Turn P) (condition : Option String) : Reply P :=
  match t.fault with
  | some .unreachable => .failed
  | some .status => .status t.poll
  | none => if condition = some t.etag then .notModified t.poll else .ok t.poll t.etag t.hooks

/-- The list that a turn has to give. -/
def Turn.given (t : Turn P) : Option (List P) := if t.fault.isNone then t.hooks else none

/-- A tag names one list. -/
def TagsName (ts : List (Turn P)) : Prop :=
  ∀ t ∈ ts, ∀ t' ∈ ts, t.etag ≠ "" → t.etag = t'.etag → t.hooks = t'.hooks

namespace Ranges

/-- The list after the turns so far. -/
def after (ts : List (Turn P)) : Ranges P := ts.foldl (fun r t => (r.refresh t.answer).1) new

/-- Nothing is kept but a list that was given, with its tag. -/
structure Kept (ts : List (Turn P)) (r : Ranges P) : Prop where
  cur : r.cur = (ts.filterMap Turn.given).getLast?
  tag : r.etag ≠ "" → r.cur.isSome → ∃ t ∈ ts, t.etag = r.etag ∧ t.hooks = r.cur

variable {ts : List (Turn P)} {r r' : Ranges P} {t : Turn P}

omit [DecidableEq P] in
theorem Kept.silent (h : Kept ts r) (hgiven : t.given = none) (hcur : r'.cur = r.cur) (htag : r'.etag = r.etag) :
    Kept (ts ++ [t]) r' := by
  refine ⟨?_, fun hne hsome => ?_⟩
  · rw [List.filterMap_append, List.filterMap_cons_none hgiven, List.filterMap_nil, List.append_nil, hcur, h.cur]
  · obtain ⟨u, hu, hsame⟩ := h.tag (htag ▸ hne) (hcur ▸ hsome)
    exact ⟨u, List.mem_append_left _ hu, by rw [htag, hcur]; exact hsame⟩

omit [DecidableEq P] in
theorem getLast?_given {hooks : List P} (hgiven : t.given = some hooks) :
    ((ts ++ [t]).filterMap Turn.given).getLast? = some hooks := by
  rw [List.filterMap_append, List.filterMap_cons_some hgiven, List.filterMap_nil, List.getLast?_concat]

/-- One turn: where it gives a list this is the list from then on, and the report says whether it differs. -/
theorem Kept.refresh (h : Kept ts r) (htags : TagsName (ts ++ [t])) : Kept (ts ++ [t]) (r.refresh t.answer).1 ∧
    (r.refresh t.answer).2 = t.given.map fun hooks => r.cur.all fun old => !samePrefixes old hooks := by
  unfold Ranges.refresh Turn.answer
  cases hfault : t.fault with
  | some fault =>
    have hgiven : t.given = none := by rw [Turn.given, hfault]; rfl
    rw [hgiven]
    cases fault with
    | unreachable => exact ⟨h.silent hgiven rfl rfl, rfl⟩
    | status => exact ⟨h.silent hgiven rfl rfl, rfl⟩
  | none =>
    have hgiven : t.given = t.hooks := by rw [Turn.given, hfault]; rfl
    rw [hgiven]
    dsimp only
    split_ifs with hcondition
    · unfold condition at hcondition
      split_ifs at hcondition with hheld
      obtain ⟨hne, hsome⟩ := hheld
      obtain ⟨u, hu, htag, hhooks⟩ := h.tag hne hsome
      obtain ⟨old, hold⟩ := Option.isSome_iff_exists.mp hsome
      have hsame : t.hooks = some old := by
        rw [← hold, ← hhooks]
        refine (htags u (List.mem_append_left _ hu) t (by simp) (htag ▸ hne) ?_).symm
        exact htag.trans (Option.some.inj hcondition)
      refine ⟨⟨?_, fun _ _ => ⟨t, by simp, (Option.some.inj hcondition).symm, hsame.trans hold.symm⟩⟩, ?_⟩
      · rw [getLast?_given (hgiven.trans hsame)]
        exact hold
      · have hrefl : samePrefixes old old = true := samePrefixes_iff.mpr (List.Perm.refl _)
        rw [hsame, hold, Option.map_some, Option.all_some, hrefl]
        rfl
    · cases hhooks : t.hooks with
      | none => exact ⟨h.silent (hgiven.trans hhooks) rfl rfl, rfl⟩
      | some hooks =>
        refine ⟨⟨?_, fun _ _ => ⟨t, by simp, rfl, hhooks⟩⟩, rfl⟩
        rw [getLast?_given (hgiven.trans hhooks)]

omit [DecidableEq P] in
theorem tagsName_left (h : TagsName (ts ++ [t])) : TagsName ts :=
  fun u hu v hv => h u (List.mem_append_left _ hu) v (List.mem_append_left _ hv)

theorem kept_after (htags : TagsName ts) : Kept ts (after ts) := by
  induction ts using List.reverseRecOn with
  | nil => exact ⟨rfl, fun hne => absurd rfl hne⟩
  | append_singleton ts t ih =>
    have hafter : after (ts ++ [t]) = ((after ts).refresh t.answer).1 := by
      rw [after, List.foldl_append]
      rfl
    rw [hafter]
    exact ((ih (tagsName_left htags)).refresh htags).1

/-- The addresses taken are those of the last answer that gave any, whatever failed since, and a refresh reports a
change exactly where it gives other ranges than are held. -/
theorem ranges_current (htags : TagsName (ts ++ [t])) :
    (after (ts ++ [t])).cur = ((ts ++ [t]).filterMap Turn.given).getLast? ∧
      ((after ts).refresh t.answer).2.isSome = t.given.isSome ∧
      (((after ts).refresh t.answer).2 = some true ↔
        ∃ hooks, t.given = some hooks ∧ ∀ old, (after ts).cur = some old → ¬ old.Perm hooks) := by
  obtain ⟨-, hreport⟩ := (kept_after (tagsName_left htags)).refresh htags
  refine ⟨(kept_after htags).cur, by rw [hreport, Option.isSome_map], ?_⟩
  rw [hreport, Option.map_eq_some_iff]
  refine exists_congr fun hooks => and_congr_right fun _ => ?_
  rw [Option.all_eq_true]
  refine forall_congr' fun old => imp_congr_right fun _ => ?_
  rw [Bool.not_eq_true', ← Bool.not_eq_true, samePrefixes_iff]

/-- Two addresses are read, then a request fails, and the next finds the list as it was. -/
theorem ranges_current_again :
    let ts : List (Turn ℕ) := [⟨"t", some [1, 2], none, none⟩, ⟨"", none, none, some .unreachable⟩]
    let t : Turn ℕ := ⟨"t", some [1, 2], none, none⟩
    (after (ts ++ [t])).cur = ((ts ++ [t]).filterMap Turn.given).getLast? ∧
      ((after ts).refresh t.answer).2.isSome = t.given.isSome ∧
      (((after ts).refresh t.answer).2 = some true ↔
        ∃ hooks, t.given = some hooks ∧ ∀ old, (after ts).cur = some old → ¬ old.Perm hooks) :=
  ranges_current (by unfold TagsName; decide)

end Ranges

end Ranges
end Kubeast.Webhook
