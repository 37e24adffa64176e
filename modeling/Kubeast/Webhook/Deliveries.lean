import Kubeast.Foundation.Recent
import Kubeast.Foundation.Table

/-! The delivery IDs taken lately (`internal/webhook/deliveries.go`), and that the map and the
slice together are one memory, oldest first. Times are in nanoseconds. -/
namespace Kubeast.Webhook
open Recent

structure Deliveries where
  ttl : ℤ
  max : ℕ
  seen : Dict String ℤ
  /-- IDs in the order taken. -/
  order : List String
  /-- Index of the oldest live entry in `order`. -/
  head : ℕ

namespace Deliveries

def new : Deliveries := ⟨24 * 3600 * 1000000000, 100000, Table.empty, [], 0⟩

def forget (seen : Dict String ℤ) (id : String) : Dict String ℤ := seen.delete fun e => e.1 == id

/-- The loop of `expire` over what is left of `order`. -/
def expireLoop (ttl now : ℤ) : List String → Dict String ℤ → ℕ → Dict String ℤ × ℕ
  | [], seen, head => (seen, head)
  | id :: rest, seen, head =>
    match seen.get id with
    | some (_, t) =>
        if now - t < ttl then (seen, head) else expireLoop ttl now rest (forget seen id) (head + 1)
    | none => expireLoop ttl now rest seen (head + 1)

/-- The loop of `Take` that makes room. -/
def evictLoop (max : ℕ) : List String → Dict String ℤ → ℕ → Dict String ℤ × ℕ
  | [], seen, head => (seen, head)
  | id :: rest, seen, head =>
    if max ≤ seen.rows.length then evictLoop max rest (forget seen id) (head + 1) else (seen, head)

def compact (d : Deliveries) : Deliveries :=
  if 0 < d.head ∧ d.order.length ≤ d.head * 2 then
    { d with order := d.order.drop d.head, head := 0 } else d

def expire (d : Deliveries) (now : ℤ) : Deliveries :=
  let (seen, head) := expireLoop d.ttl now (d.order.drop d.head) d.seen d.head
  compact { d with seen := seen, head := head }

/-- `Seen`: whether the ID was taken within the TTL. -/
def wasSeen (d : Deliveries) (id : String) (now : ℤ) : Deliveries × Bool :=
  let d := d.expire now
  (d, (d.seen.get id).any fun e => now - e.2 < d.ttl)

/-- `Take`. -/
def take (d : Deliveries) (id : String) (now : ℤ) : Deliveries :=
  let d := d.expire now
  if (d.seen.get id).isSome then { d with seen := d.seen.set id now }
  else
    let (seen, head) := evictLoop d.max (d.order.drop d.head) d.seen d.head
    compact { d with seen := seen.set id now, order := d.order ++ [id], head := head }

/-- The live IDs with the times they were taken at, oldest first. -/
def memory (d : Deliveries) : Memory String := (d.order.drop d.head).filterMap d.seen.get

section Entries
variable {seen : Dict String ℤ} {ids : List String} {id : String} {ttl now : ℤ} {head max : ℕ}

/-- The map holds the IDs of a list. -/
structure Holds (ids : List String) (seen : Dict String ℤ) : Prop where
  nodup : ids.Nodup
  iff : ∀ id, (seen.get id).isSome = true ↔ id ∈ ids

theorem get_forget (seen : Dict String ℤ) (id k : String) :
    (forget seen id).get k = if id = k then none else seen.get k := by
  have hdelete : (forget seen id).get k = (seen.get k).filter fun e => !(e.1 == id) :=
    Table.get_delete
  rw [hdelete]
  cases h : seen.get k with
  | none => simp
  | some e =>
    have hk : e.1 = k := Table.key_of_get h
    by_cases hid : id = k
    · simp [Option.filter, hk, hid]
    · simp [Option.filter, hk, hid, Ne.symm hid]

theorem Holds.tail (h : Holds (id :: ids) seen) : Holds ids (forget seen id) := by
  obtain ⟨hid, hnodup⟩ := List.nodup_cons.mp h.nodup
  refine ⟨hnodup, fun k => ?_⟩
  rw [get_forget]
  split
  · next hk => simpa using fun hmem => hid (hk ▸ hmem)
  · next hk => simp [h.iff k, Ne.symm hk]

/-- Forgetting one ID leaves the others' entries. -/
theorem filterMap_forget (h : id ∉ ids) : ids.filterMap (forget seen id).get = ids.filterMap seen.get := by
  apply List.filterMap_congr
  intro k hk
  rw [get_forget, if_neg]
  rintro rfl
  exact h hk

theorem Holds.get (h : Holds ids seen) (hid : id ∈ ids) : ∃ t, seen.get id = some (id, t) := by
  obtain ⟨e, he⟩ := Option.isSome_iff_exists.mp ((h.iff id).mpr hid)
  have hk : e.1 = id := Table.key_of_get he
  exact ⟨e.2, by rw [he, ← hk]⟩

theorem Holds.keys (h : Holds ids seen) : (ids.filterMap seen.get).map Prod.fst = ids := by
  rw [List.map_filterMap]
  conv_rhs => rw [← List.filterMap_some (l := ids)]
  apply List.filterMap_congr
  intro k hk
  obtain ⟨t, ht⟩ := h.get hk
  rw [ht]
  rfl

theorem Holds.perm (h : Holds ids seen) : ids.Perm (seen.rows.map Prod.fst) := by
  apply (List.perm_ext_iff_of_nodup h.nodup seen.nodup).mpr
  intro k
  rw [← h.iff k, List.mem_map]
  constructor
  · intro hk
    obtain ⟨e, he⟩ := Option.isSome_iff_exists.mp hk
    exact ⟨e, Table.mem_of_get he, Table.key_of_get he⟩
  · rintro ⟨e, he, rfl⟩
    rw [Table.get_of_mem he]
    rfl

theorem Holds.length_eq (h : Holds ids seen) : seen.rows.length = ids.length := by
  rw [h.perm.length_eq, List.length_map]

theorem expireLoop_spec (ttl now : ℤ) (head : ℕ) (h : Holds ids seen) : ∃ j seen',
    expireLoop ttl now ids seen head = (seen', head + j) ∧ j ≤ ids.length ∧
    Holds (ids.drop j) seen' ∧
    (ids.drop j).filterMap seen'.get = Recent.expire ttl now (ids.filterMap seen.get) := by
  induction ids generalizing seen head with
  | nil => exact ⟨0, seen, rfl, le_rfl, h, rfl⟩
  | cons id ids ih =>
    obtain ⟨t, ht⟩ := h.get (List.mem_cons_self ..)
    rw [expireLoop, ht]
    dsimp only
    rw [List.filterMap_cons, ht]
    dsimp only
    by_cases hlive : now - t < ttl
    · refine ⟨0, seen, by rw [if_pos hlive, Nat.add_zero], Nat.zero_le _, h, ?_⟩
      rw [List.drop_zero, List.filterMap_cons, ht, Recent.expire,
        List.dropWhile_cons_of_neg (by simpa [expired] using hlive)]
    · obtain ⟨j, seen', hloop, hj, hholds, hentries⟩ := ih (head + 1) h.tail
      refine ⟨j + 1, seen', ?_, by simpa using hj, hholds, ?_⟩
      · rw [if_neg hlive, hloop]
        congr 1
        omega
      · rw [List.drop_succ_cons, hentries, filterMap_forget (List.nodup_cons.mp h.nodup).1,
          Recent.expire, Recent.expire,
          List.dropWhile_cons_of_pos (by simpa [expired] using hlive)]

theorem evictLoop_spec (max head : ℕ) (h : Holds ids seen) : ∃ j seen',
    evictLoop max ids seen head = (seen', head + j) ∧ j ≤ ids.length ∧
    Holds (ids.drop j) seen' ∧ (ids.drop j).filterMap seen'.get =
      (ids.filterMap seen.get).drop (ids.length + 1 - max) := by
  induction ids generalizing seen head with
  | nil => exact ⟨0, seen, rfl, le_rfl, h, by simp⟩
  | cons id ids ih =>
    obtain ⟨t, ht⟩ := h.get (List.mem_cons_self ..)
    rw [evictLoop, h.length_eq, List.filterMap_cons, ht, List.length_cons]
    dsimp only
    by_cases hfull : max ≤ ids.length + 1
    · obtain ⟨j, seen', hloop, hj, hholds, hentries⟩ := ih (head + 1) h.tail
      refine ⟨j + 1, seen', ?_, by simpa using hj, hholds, ?_⟩
      · rw [if_pos hfull, hloop]
        congr 1
        omega
      · rw [List.drop_succ_cons, hentries, filterMap_forget (List.nodup_cons.mp h.nodup).1,
          show ids.length + 1 + 1 - max = ids.length + 1 - max + 1 by omega, List.drop_succ_cons]
    · refine ⟨0, seen, by rw [if_neg hfull, Nat.add_zero], Nat.zero_le _, h, ?_⟩
      rw [show ids.length + 1 + 1 - max = 0 by omega, List.drop_zero, List.drop_zero,
        List.filterMap_cons, ht]

theorem get_set (seen : Dict String ℤ) (id k : String) (now : ℤ) :
    (seen.set id now).get k = if id = k then some (id, now) else seen.get k := by
  split
  · next hk =>
    rw [← hk]
    exact Dict.get_set_self
  · next hk => exact Dict.get_set_ne hk

/-- An ID that is there already only gets a new time. -/
theorem Holds.set (h : Holds ids seen) (hid : id ∈ ids) (now : ℤ) : Holds ids (seen.set id now) ∧
    ids.filterMap (seen.set id now).get =
      (ids.filterMap seen.get).map fun e => if e.1 = id then (id, now) else e := by
  refine ⟨⟨h.nodup, fun k => ?_⟩, ?_⟩
  · rw [get_set]
    split
    · next hk => simpa using hk ▸ hid
    · exact h.iff k
  · rw [List.map_filterMap]
    apply List.filterMap_congr
    intro k hk
    obtain ⟨t, ht⟩ := h.get hk
    rw [get_set, ht, Option.map_some]
    by_cases hkid : id = k
    · rw [if_pos hkid, if_pos hkid.symm]
    · rw [if_neg hkid, if_neg (Ne.symm hkid)]

theorem Holds.append (h : Holds ids seen) (hid : id ∉ ids) (now : ℤ) :
    Holds (ids ++ [id]) (seen.set id now) ∧
    (ids ++ [id]).filterMap (seen.set id now).get = ids.filterMap seen.get ++ [(id, now)] := by
  refine ⟨⟨?_, fun k => ?_⟩, ?_⟩
  · rw [List.nodup_append]
    refine ⟨h.nodup, List.nodup_singleton _, ?_⟩
    rintro x hx y hy rfl
    exact hid (List.mem_singleton.mp hy ▸ hx)
  · rw [get_set, List.mem_append, List.mem_singleton]
    split
    · next hk => simp [hk]
    · next hk => simp [h.iff k, Ne.symm hk]
  · rw [List.filterMap_append, List.filterMap_cons, get_set, if_pos rfl, List.filterMap_nil]
    congr 1
    apply List.filterMap_congr
    intro k hk
    rw [get_set, if_neg]
    rintro rfl
    exact hid hk

end Entries

section Refines
variable {d : Deliveries} {id : String}

/-- The map and the live part of the slice hold the same IDs. -/
structure Consistent (d : Deliveries) : Prop where
  holds : Holds (d.order.drop d.head) d.seen
  head_le : d.head ≤ d.order.length

theorem consistent_start (ttl : ℤ) (max : ℕ) : Consistent ⟨ttl, max, Table.empty, [], 0⟩ :=
  ⟨⟨List.nodup_nil, fun id => by simp⟩, le_rfl⟩

theorem consistent_compact (h : Consistent d) :
    Consistent d.compact ∧ d.compact.memory = d.memory ∧ d.compact.ttl = d.ttl ∧
      d.compact.max = d.max ∧ d.compact.seen = d.seen := by
  unfold compact
  split_ifs
  · exact ⟨⟨h.holds, Nat.zero_le _⟩, rfl, rfl, rfl, rfl⟩
  · exact ⟨h, rfl, rfl, rfl, rfl⟩

theorem consistent_expire (h : Consistent d) (now : ℤ) :
    Consistent (d.expire now) ∧ (d.expire now).memory = Recent.expire d.ttl now d.memory ∧
      (d.expire now).ttl = d.ttl ∧ (d.expire now).max = d.max := by
  obtain ⟨j, seen', hloop, hj, hholds, hentries⟩ := expireLoop_spec d.ttl now d.head h.holds
  have hhead := h.head_le
  rw [List.length_drop] at hj
  unfold expire
  rw [hloop]
  dsimp only
  have hconsistent : Consistent { d with seen := seen', head := d.head + j } :=
    ⟨by rw [List.drop_drop] at hholds; exact hholds, by show d.head + j ≤ d.order.length; omega⟩
  obtain ⟨hcompact, hmemory, httl, hmax, -⟩ := consistent_compact hconsistent
  refine ⟨hcompact, ?_, httl, hmax⟩
  rw [hmemory, memory, ← List.drop_drop]
  exact hentries

theorem mem_memory (h : Consistent d) {t : ℤ} :
    d.seen.get id = some (id, t) ↔ (id, t) ∈ d.memory := by
  unfold memory
  rw [List.mem_filterMap]
  constructor
  · intro hget
    exact ⟨id, (h.holds.iff id).mp (by rw [hget]; rfl), hget⟩
  · rintro ⟨k, -, hk⟩
    obtain rfl : id = k := Table.key_of_get hk
    exact hk

/-- The IDs that are remembered. -/
theorem isSome_iff (h : Consistent d) :
    (d.seen.get id).isSome = true ↔ id ∈ d.memory.map Prod.fst := by
  rw [memory, h.holds.keys, h.holds.iff]

/-- `Seen` answers as the memory does. -/
theorem wasSeen_refines (h : Consistent d) (id : String) (now : ℤ) :
    (d.wasSeen id now).2 = Recent.seen d.ttl d.memory id now := by
  obtain ⟨hconsistent, hmemory, httl, -⟩ := consistent_expire h now
  rw [wasSeen, Recent.seen, ← hmemory, Bool.eq_iff_iff, List.any_eq_true, Option.any_eq_true,
    httl]
  constructor
  · rintro ⟨e, he, hlive⟩
    have hk : e.1 = id := Table.key_of_get he
    refine ⟨e, (mem_memory hconsistent).mp (by rw [hk, he, ← hk]), ?_⟩
    simpa [hk, expired] using hlive
  · rintro ⟨e, he, hlive⟩
    obtain ⟨hk, hlive⟩ := Bool.and_eq_true_iff.mp hlive
    obtain rfl := of_decide_eq_true hk
    exact ⟨e, (mem_memory hconsistent).mpr he, by simpa [expired] using hlive⟩

/-- `Take` does what the memory does. -/
theorem take_refines (h : Consistent d) (id : String) (now : ℤ) : Consistent (d.take id now) ∧
    (d.take id now).memory = Recent.take d.ttl d.max d.memory id now ∧
    (d.take id now).ttl = d.ttl ∧ (d.take id now).max = d.max := by
  obtain ⟨hconsistent, hmemory, httl, hmax⟩ := consistent_expire h now
  have hiff : ((d.expire now).seen.get id).isSome = true ↔ _ := isSome_iff hconsistent
  unfold take Recent.take
  dsimp only
  rw [hmemory] at hiff
  by_cases hid : ((d.expire now).seen.get id).isSome = true
  · rw [if_pos hid, if_pos (hiff.mp hid)]
    have hmem := (hconsistent.holds.iff id).mp hid
    obtain ⟨hholds, hentries⟩ := hconsistent.holds.set hmem now
    refine ⟨⟨hholds, hconsistent.head_le⟩, ?_, httl, hmax⟩
    rw [← hmemory]
    exact hentries
  · rw [if_neg hid, if_neg (fun hk => hid (hiff.mpr hk))]
    obtain ⟨j, seen', hloop, hj, hholds, hentries⟩ :=
      evictLoop_spec (d.expire now).max (d.expire now).head hconsistent.holds
    have hlength : (d.expire now).memory.length =
        ((d.expire now).order.drop (d.expire now).head).length := by
      rw [← List.length_map (f := Prod.fst), memory, hconsistent.holds.keys]
    have hnot : id ∉ ((d.expire now).order.drop (d.expire now).head).drop j :=
      fun hmem => hid ((hconsistent.holds.iff id).mpr (List.mem_of_mem_drop hmem))
    obtain ⟨hholds', hentries'⟩ := hholds.append hnot now
    have hhead := hconsistent.head_le
    have hdrop := List.length_drop (l := (d.expire now).order) (i := (d.expire now).head)
    have horder : ((d.expire now).order ++ [id]).drop ((d.expire now).head + j) =
        ((d.expire now).order.drop (d.expire now).head).drop j ++ [id] := by
      rw [List.drop_append_of_le_length (by omega), List.drop_drop]
    rw [← horder] at hholds' hentries'
    rw [hloop]
    have htaken : Consistent { d.expire now with
        seen := seen'.set id now, order := (d.expire now).order ++ [id]
        head := (d.expire now).head + j } := by
      refine ⟨hholds', ?_⟩
      show (d.expire now).head + j ≤ ((d.expire now).order ++ [id]).length
      rw [List.length_append]
      omega
    obtain ⟨hcompact, hmemory', httl', hmax', -⟩ := consistent_compact htaken
    refine ⟨hcompact, ?_, httl'.trans httl, hmax'.trans hmax⟩
    rw [hmemory', ← hmemory, hlength, ← hmax]
    exact hentries'.trans (by rw [hentries]; rfl)

end Refines
end Deliveries
end Kubeast.Webhook
