import Kubeast.Foundation.Recent
import Mathlib.Data.Finset.Card
import Mathlib.Data.List.DropRight

/-! What a memory of the keys taken lately knows of all takes there were. While no key is taken
again behind the back of a later one, the memory stands in the order of the last takes, and a key is
remembered exactly while its last take is recent and few others have been taken since. -/
namespace Recent
variable {K : Type*} [DecidableEq K] {ttl now now' t : ℤ} {max : ℕ} {log before since : List (K × ℤ)}
  {m m₁ m₂ : Memory K} {k j : K}

/-- The last take of a key is less than `ttl` old, and fewer than `max` others were taken since. -/
def Recalled (ttl : ℤ) (max : ℕ) (log : List (K × ℤ)) (k : K) (now : ℤ) : Prop :=
  ∃ before t since, log = before ++ (k, t) :: since ∧ k ∉ since.map Prod.fst ∧ now - t < ttl ∧
    (since.map Prod.fst).toFinset.card < max

/-- A key that is still recalled is taken again only where no other has been taken since. -/
def InOrder (ttl : ℤ) (max : ℕ) (log : List (K × ℤ)) (k : K) (now : ℤ) : Prop :=
  Recalled ttl max log k now → (log.map Prod.fst).getLast? = some k

section Takes

omit [DecidableEq K] in
theorem exists_last_take (h : k ∈ log.map Prod.fst) :
    ∃ before t since, log = before ++ (k, t) :: since ∧ k ∉ since.map Prod.fst := by
  induction log using List.reverseRecOn with
  | nil => cases h
  | append_singleton log e ih =>
    by_cases he : e.1 = k
    · exact ⟨log, e.2, [], by rw [← he], List.not_mem_nil⟩
    · rw [List.map_append, List.mem_append, List.map_singleton, List.mem_singleton] at h
      obtain ⟨before, t, since, rfl, hsince⟩ := ih (h.resolve_right (Ne.symm he))
      refine ⟨before, t, since ++ [e], by simp, ?_⟩
      rw [List.map_append, List.mem_append, not_or]
      exact ⟨hsince, by simpa using Ne.symm he⟩

omit [DecidableEq K] in
/-- The last take of a key in a log with one more take. -/
theorem last_take_concat {e : K × ℤ} (h : log ++ [e] = before ++ (k, t) :: since)
    (hk : k ∉ since.map Prod.fst) : (e = (k, t) ∧ since = [] ∧ before = log) ∨
      ∃ since', e.1 ≠ k ∧ since = since' ++ [e] ∧ log = before ++ (k, t) :: since' := by
  cases since using List.reverseRecOn with
  | nil =>
    obtain ⟨hlog, he⟩ := List.append_inj' h rfl
    exact Or.inl ⟨List.singleton_inj.mp he, rfl, hlog.symm⟩
  | append_singleton since x =>
    rw [← List.cons_append, ← List.append_assoc] at h
    obtain ⟨hlog, hx⟩ := List.append_inj' h rfl
    obtain rfl := List.singleton_inj.mp hx
    refine Or.inr ⟨since, ?_, rfl, hlog⟩
    rintro rfl
    simp at hk

omit [DecidableEq K] in
/-- A key is taken for the last time in one place. -/
theorem last_take_unique {before' since' : List (K × ℤ)} {t' : ℤ}
    (h : before ++ (k, t) :: since = before' ++ (k, t') :: since') (hk : k ∉ since.map Prod.fst)
    (hk' : k ∉ since'.map Prod.fst) : t = t' ∧ since = since' := by
  induction since using List.reverseRecOn generalizing since' with
  | nil =>
    rcases last_take_concat h hk' with ⟨heq, rfl, -⟩ | ⟨-, hne, -⟩
    · exact ⟨(Prod.mk.inj heq).2, rfl⟩
    · exact absurd rfl hne
  | append_singleton since e ih =>
    rw [← List.cons_append, ← List.append_assoc] at h
    have hrest : k ∉ since.map Prod.fst := fun hmem => hk (by simp [hmem])
    rcases last_take_concat h hk' with ⟨rfl, -⟩ | ⟨since'', -, rfl, hlog⟩
    · simp at hk
    · obtain ⟨ht, rfl⟩ := ih hlog hrest fun hmem => hk' (by simp [hmem])
      exact ⟨ht, rfl⟩

/-- Whether a key is recalled is read off its last take. -/
theorem recalled_append_cons (hk : k ∉ since.map Prod.fst) :
    Recalled ttl max (before ++ (k, t) :: since) k now ↔
      now - t < ttl ∧ (since.map Prod.fst).toFinset.card < max := by
  constructor
  · rintro ⟨before', t', since', hlog, hk', hrecent⟩
    obtain ⟨rfl, rfl⟩ := last_take_unique hlog hk hk'
    exact hrecent
  · exact fun hrecent => ⟨before, t, since, rfl, hk, hrecent⟩

theorem inOrder_of_new (h : k ∉ log.map Prod.fst) : InOrder ttl max log k now := by
  rintro ⟨before, t, since, rfl, -⟩
  simp at h

theorem inOrder_of_last (h : (log.map Prod.fst).getLast? = some k) : InOrder ttl max log k now :=
  fun _ => h

theorem take_of_expire (ttl : ℤ) (max : ℕ) (m : Memory K) (k : K) (now : ℤ) :
    take ttl max (expire ttl now m) k now = take ttl max m k now := by
  have hexpire : expire ttl now (expire ttl now m) = expire ttl now m :=
    List.dropWhile_idempotent (p := expired ttl now) m
  rw [take, take, hexpire]

/-- A memory does not outgrow its bound. -/
theorem length_take_le (hmax : 0 < max) (h : m.length ≤ max) :
    (take ttl max m k now).length ≤ max := by
  have hexpire := (expire_isSuffix ttl now m).length_le.trans h
  unfold take
  split
  · rwa [List.length_map]
  · rw [List.length_append, List.length_drop, List.length_singleton]
    omega

theorem card_le_of_append (since rest : List (K × ℤ)) :
    (since.map Prod.fst).toFinset.card ≤ ((since ++ rest).map Prod.fst).toFinset.card := by
  apply Finset.card_le_card
  intro j hj
  rw [List.mem_toFinset] at hj ⊢
  rw [List.map_append]
  exact List.mem_append_left _ hj

end Takes

/-- What the memory holds of a log: each key stands where its last take does, with those taken
since behind it, or it is gone because it was old or because too many came since. -/
structure Faithful (ttl : ℤ) (max : ℕ) (log : List (K × ℤ)) (m : Memory K) (now : ℤ) : Prop where
  sorted : Sorted m
  nodup : (m.map Prod.fst).Nodup
  length_le : m.length ≤ max
  past : ∀ e ∈ m, e.2 ≤ now
  known : m.map Prod.fst ⊆ log.map Prod.fst
  last : ∀ k t before since, log = before ++ (k, t) :: since → k ∉ since.map Prod.fst →
    (∃ m₁ m₂, m = m₁ ++ (k, t) :: m₂ ∧ ∀ j, j ∈ m₂.map Prod.fst ↔ j ∈ since.map Prod.fst) ∨
      k ∉ m.map Prod.fst ∧ (ttl ≤ now - t ∨ max ≤ (since.map Prod.fst).toFinset.card)

namespace Faithful

theorem nil (ttl : ℤ) (max : ℕ) (now : ℤ) : Faithful ttl max ([] : List (K × ℤ)) [] now :=
  ⟨List.Pairwise.nil, List.nodup_nil, Nat.zero_le _, nofun, fun _ h => h,
    fun _ _ _ _ h => by simp at h⟩

section Behind
variable (h : Faithful ttl max log m now)
include h

theorem later (hnow : now ≤ now') : Faithful ttl max log m now' := by
  refine ⟨h.sorted, h.nodup, h.length_le, fun e he => (h.past e he).trans hnow, h.known, ?_⟩
  intro k t before since hlog hk
  refine (h.last k t before since hlog hk).imp_right fun hgone => ⟨hgone.1, hgone.2.imp_left ?_⟩
  omega

/-- The keys behind a place in the memory, counted. -/
theorem card_behind (hm : m = m₁ ++ (k, t) :: m₂) {keys : List K}
    (hkeys : ∀ j, j ∈ m₂.map Prod.fst ↔ j ∈ keys) : keys.toFinset.card = m₂.length := by
  have hnodup : (m₂.map Prod.fst).Nodup :=
    h.nodup.sublist ((hm ▸ (List.sublist_cons_self _ _).trans (List.sublist_append_right _ _)).map _)
  have hsame : keys.toFinset = (m₂.map Prod.fst).toFinset := by
    ext j
    rw [List.mem_toFinset, List.mem_toFinset, hkeys]
  rw [hsame, List.toFinset_card_of_nodup hnodup, List.length_map]

theorem expire (hnow : now ≤ now') : Faithful ttl max log (Recent.expire ttl now' m) now' := by
  have hsuffix := expire_isSuffix ttl now' m
  have hsub : (Recent.expire ttl now' m).map Prod.fst ⊆ m.map Prod.fst := List.map_subset _ hsuffix.subset
  refine ⟨sorted_expire h.sorted, h.nodup.sublist (hsuffix.sublist.map _),
    hsuffix.length_le.trans h.length_le, fun e he => (h.past e (hsuffix.subset he)).trans hnow,
    List.Subset.trans hsub h.known, ?_⟩
  intro k t before since hlog hk
  rcases h.last k t before since hlog hk with ⟨m₁, m₂, hm, hbehind⟩ | ⟨hgone, hwhy⟩
  · by_cases hold : ttl ≤ now' - t
    · refine Or.inr ⟨?_, Or.inl hold⟩
      intro hmem
      obtain ⟨e, he, rfl⟩ := List.mem_map.mp hmem
      have hsame : e = (e.1, t) := List.inj_on_of_nodup_map h.nodup (hsuffix.subset he)
        (hm ▸ List.mem_append_right _ List.mem_cons_self) rfl
      have hlive := live_of_mem_expire h.sorted he
      rw [hsame] at hlive
      exact absurd hlive (not_lt.mpr hold)
    · obtain ⟨m₁', hm'⟩ := (expire_append_cons ttl now' m₁ (k, t) m₂).resolve_left hold
      exact Or.inl ⟨m₁', m₂, hm ▸ hm', hbehind⟩
  · refine Or.inr ⟨fun hmem => hgone (hsub hmem), hwhy.imp_left fun hold => ?_⟩
    omega

/-- A key is seen exactly while it is recalled. -/
theorem seen_iff (hnow : now ≤ now') :
    seen ttl m k now' = true ↔ Recalled ttl max log k now' := by
  rw [Recent.seen_iff h.sorted]
  have hlater := h.expire hnow
  constructor
  · intro hk
    obtain ⟨before, t, since, hlog, hsince⟩ := exists_last_take (hlater.known hk)
    obtain ⟨m₁, m₂, hm, hbehind⟩ :=
      (hlater.last k t before since hlog hsince).resolve_right fun hgone => hgone.1 hk
    have hlive : now' - t < ttl := live_of_mem_expire h.sorted (e := (k, t)) (by rw [hm]; simp)
    refine ⟨before, t, since, hlog, hsince, hlive, ?_⟩
    have hlength := hlater.length_le
    rw [hlater.card_behind hm hbehind]
    rw [hm, List.length_append, List.length_cons] at hlength
    omega
  · rintro ⟨before, t, since, hlog, hsince, hlive, hfew⟩
    rcases hlater.last k t before since hlog hsince with ⟨m₁, m₂, hm, -⟩ | ⟨-, hold | hmany⟩
    · rw [hm]
      simp
    · exact absurd hlive (not_lt.mpr hold)
    · exact absurd hfew (not_lt.mpr hmany)

end Behind

section Take
variable (h : Faithful ttl max log m now) (hlive : ∀ e ∈ m, now - e.2 < ttl)
include h hlive

/-- The key that was taken last is taken again: it has its place already. -/
theorem take_last (hk : k ∈ m.map Prod.fst) (hlast : (log.map Prod.fst).getLast? = some k) :
    Faithful ttl max (log ++ [(k, now)]) (Recent.take ttl max m k now) now := by
  obtain ⟨log, e, rfl⟩ : ∃ front e, log = front ++ [e] := by
    rcases List.eq_nil_or_concat log with rfl | ⟨front, e, rfl⟩
    · cases hlast
    · exact ⟨front, e, List.concat_eq_append ..⟩
  obtain rfl : e.1 = k := by simpa using hlast
  obtain ⟨m₁, m₂, rfl, hbehind⟩ :=
    (h.last e.1 e.2 log [] rfl List.not_mem_nil).resolve_right fun hgone => hgone.1 hk
  obtain rfl : m₂ = [] := by
    rw [← List.map_eq_nil_iff (f := Prod.fst), List.eq_nil_iff_forall_not_mem]
    exact fun j hj => List.not_mem_nil ((hbehind j).mp hj)
  have hnot : e.1 ∉ m₁.map Prod.fst := by
    have hnodup := h.nodup
    rw [List.map_append, List.nodup_append] at hnodup
    exact fun hmem => hnodup.2.2 e.1 hmem e.1 (by simp) rfl
  have htake : Recent.take ttl max (m₁ ++ [(e.1, e.2)]) e.1 now = m₁ ++ [(e.1, now)] := by
    rw [Recent.take, expire_of_live hlive, if_pos hk, List.map_append, List.map_singleton, if_pos rfl]
    congr 1
    conv_rhs => rw [← List.map_id m₁]
    apply List.map_congr_left
    intro e' he'
    exact if_neg fun heq : e'.1 = e.1 => hnot (heq ▸ List.mem_map_of_mem he')
  have hkeys : (m₁ ++ [(e.1, now)]).map Prod.fst = (m₁ ++ [(e.1, e.2)]).map Prod.fst := by simp
  have hsorted := List.pairwise_append.mp h.sorted
  rw [htake]
  refine ⟨?_, hkeys ▸ h.nodup, by simpa using h.length_le, ?_, ?_, ?_⟩
  · refine List.pairwise_append.mpr ⟨hsorted.1, List.pairwise_singleton _ _, fun e' he' x hx => ?_⟩
    rw [List.mem_singleton.mp hx]
    exact h.past e' (List.mem_append_left _ he')
  · intro e' he'
    rcases List.mem_append.mp he' with he' | he'
    · exact h.past e' (List.mem_append_left _ he')
    · rw [List.mem_singleton.mp he']
  · rw [hkeys, @List.map_append _ _ _ (log ++ [e])]
    exact fun j hj => List.mem_append_left _ (h.known hj)
  · intro j t before since hlog hj
    rcases last_take_concat hlog hj with ⟨heq, rfl, rfl⟩ | ⟨since', hne, rfl, hlog'⟩
    · obtain ⟨rfl, rfl⟩ := Prod.mk.inj heq
      exact Or.inl ⟨m₁, [], rfl, fun j => Iff.rfl⟩
    · have hj' : j ∉ since'.map Prod.fst := fun hmem => hj (by simp [hmem])
      rcases h.last j t before since' hlog' hj' with ⟨n₁, n₂, hn, hbehind'⟩ | ⟨hgone, hwhy⟩
      · have hn₂ : j ∉ n₂.map Prod.fst := fun hmem => hj' ((hbehind' j).mp hmem)
        obtain ⟨n₃, -, rfl, rfl⟩ := (last_take_concat hn hn₂).resolve_left fun heq =>
          hne (congrArg Prod.fst heq.1)
        refine Or.inl ⟨n₁, n₃ ++ [(e.1, now)], by simp, fun i => ?_⟩
        have hi := hbehind' i
        simp only [List.map_append, List.mem_append, List.map_singleton, List.mem_singleton] at hi ⊢
        rw [← hi]
        tauto
      · exact Or.inr ⟨hkeys ▸ hgone, hwhy.imp_right fun hmany =>
          hmany.trans (card_le_of_append since' _)⟩

/-- A new key takes the last place; the first makes room where there is none. -/
theorem take_new (hmax : 0 < max) (hk : k ∉ m.map Prod.fst) :
    Faithful ttl max (log ++ [(k, now)]) (Recent.take ttl max m k now) now := by
  have hexpire := expire_of_live hlive
  have hnew : k ∉ (Recent.expire ttl now m).map Prod.fst := by rwa [hexpire]
  have hlength := h.length_le
  have htake : Recent.take ttl max m k now = m.drop (m.length + 1 - max) ++ [(k, now)] := by
    rw [take_of_new hnew, hexpire]
  refine ⟨sorted_take hnew h.sorted h.past, nodup_take hnew h.nodup, ?_, ?_, ?_, ?_⟩
  · rw [htake, List.length_append, List.length_drop, List.length_singleton]
    omega
  · intro e he
    rcases mem_take hnew he with rfl | he
    · exact le_rfl
    · exact h.past e he
  · intro j hj
    obtain ⟨e, he, rfl⟩ := List.mem_map.mp hj
    rw [List.map_append]
    rcases mem_take hnew he with rfl | he
    · simp
    · exact List.mem_append_left _ (h.known (List.mem_map_of_mem he))
  · intro j t before since hlog hj
    rcases last_take_concat hlog hj with ⟨heq, rfl, rfl⟩ | ⟨since', hne, rfl, hlog'⟩
    · obtain ⟨rfl, rfl⟩ := Prod.mk.inj heq
      exact Or.inl ⟨_, [], htake, fun j => Iff.rfl⟩
    · have hj' : j ∉ since'.map Prod.fst := fun hmem => hj (by simp [hmem])
      rcases h.last j t before since' hlog' hj' with ⟨n₁, n₂, rfl, hbehind⟩ | ⟨hgone, hwhy⟩
      · have hfate : ttl ≤ now - (j, t).2 ∨ max ≤ n₂.length + 1 ∨ _ := take_append_cons hnew rfl
        rcases hfate with hold | hfull | ⟨n₁', hn₁'⟩
        · exact absurd (hlive (j, t) (by simp)) (not_lt.mpr hold)
        · -- there is no room, and the key stands first
          have hcard := h.card_behind rfl hbehind
          have hnodup := h.nodup
          rw [List.length_append, List.length_cons] at hlength
          obtain rfl : n₁ = [] := List.length_eq_zero_iff.mp (by omega)
          have hone : (([] : Memory K) ++ (j, t) :: n₂).length + 1 - max = 1 := by
            rw [List.nil_append, List.length_cons]
            omega
          refine Or.inr ⟨?_, Or.inr ?_⟩
          · rw [htake, hone, List.map_append, List.mem_append, not_or]
            exact ⟨(List.nodup_cons.mp hnodup).1, by simpa using Ne.symm hne⟩
          · have hk' : k ∉ (since'.map Prod.fst).toFinset := by
              rw [List.mem_toFinset, ← hbehind]
              exact fun hmem => hk (by simp [hmem])
            rw [List.map_append, List.toFinset_append, List.map_singleton, List.toFinset_cons,
              List.toFinset_nil, insert_empty_eq, Finset.union_comm, ← Finset.insert_eq,
              Finset.card_insert_of_notMem hk', hcard]
            exact hfull
        · refine Or.inl ⟨n₁', n₂ ++ [(k, now)], hn₁', fun i => ?_⟩
          simp only [List.map_append, List.mem_append, hbehind]
      · refine Or.inr ⟨fun hmem => ?_, hwhy.imp_right fun hmany =>
          hmany.trans (card_le_of_append since' _)⟩
        obtain ⟨e, he, rfl⟩ := List.mem_map.mp hmem
        rcases mem_take hnew he with rfl | he
        · exact hne rfl
        · exact hgone (List.mem_map_of_mem he)

end Take

/-- Taking keys in order keeps the memory faithful. -/
theorem take (h : Faithful ttl max log m now) (hnow : now ≤ now') (hmax : 0 < max)
    (horder : InOrder ttl max log k now') :
    Faithful ttl max (log ++ [(k, now')]) (Recent.take ttl max m k now') now' := by
  have hlater := h.expire hnow
  have hlive : ∀ e ∈ Recent.expire ttl now' m, now' - e.2 < ttl := fun e => live_of_mem_expire h.sorted
  rw [← take_of_expire]
  by_cases hk : k ∈ (Recent.expire ttl now' m).map Prod.fst
  · exact hlater.take_last hlive hk (horder ((h.seen_iff hnow).mp ((Recent.seen_iff h.sorted).mpr hk)))
  · exact hlater.take_new hlive hmax hk

end Faithful
end Recent
