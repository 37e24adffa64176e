import Kubeast.Netpol.Service
import Mathlib.Data.List.Nodup
import Mathlib.Data.List.Perm.Basic

/-! What pods of one group share, and that each pod read is in one group. -/
namespace Kubeast.Netpol
open Netip Text

section Key
variable {p q : Pod} {k v k' v' : String}

theorem labelText_ne (k v : String) : k ++ "=" ++ v ≠ "" := by
  intro h
  have hlist := congrArg String.toList h
  simp at hlist

theorem isLabelChar_of_mem {c : Char} (h : k.toList.all isLabelChar = true) (hc : c ∈ k.toList) :
    isLabelChar c = true := List.all_eq_true.mp h c hc

/-- The separators of a group key are no label characters. -/
theorem notMem_labelText {c : Char} (hk : k.toList.all isLabelChar = true)
    (hv : v.toList.all isLabelChar = true) (hc : isLabelChar c = false) (hne : c ≠ '=') :
    c ∉ (k ++ "=" ++ v).toList := by
  rw [String.toList_append, String.toList_append, List.mem_append, List.mem_append]
  rintro ((hmem | hmem) | hmem)
  · rw [isLabelChar_of_mem hk hmem] at hc
    cases hc
  · exact hne (List.mem_singleton.mp hmem)
  · rw [isLabelChar_of_mem hv hmem] at hc
    cases hc

theorem labelText_inj (hk : k.toList.all isLabelChar = true) (hk' : k'.toList.all isLabelChar = true)
    (h : k ++ "=" ++ v = k' ++ "=" ++ v') : k = k' ∧ v = v' := by
  have heq : ∀ {k : String}, k.toList.all isLabelChar = true → '=' ∉ k.toList := by
    intro k hk hmem
    have hchar := isLabelChar_of_mem hk hmem
    revert hchar
    decide
  have hlists := congrArg String.toList h
  simp only [String.toList_append, List.append_assoc] at hlists
  obtain ⟨hkeys, hvalues⟩ := append_cons_inj (heq hk) (heq hk') hlists
  exact ⟨String.toList_inj.mp hkeys, String.toList_inj.mp hvalues⟩

def labelTexts (p : Pod) : List String := p.labels.rows.map fun x => x.1 ++ "=" ++ x.2

theorem labelTexts_ok (p : Pod) : ∀ s ∈ labelTexts p, s ≠ "" ∧ ',' ∉ s.toList := by
  intro s hs
  obtain ⟨x, hx, rfl⟩ := List.mem_map.mp hs
  obtain ⟨hk, hv⟩ := p.labels_valid x hx
  exact ⟨labelText_ne _ _, notMem_labelText hk hv (by decide) (by decide)⟩

theorem notMem_joined {sep c : Char} {l : List String} (hne : c ≠ sep) (h : ∀ s ∈ l, c ∉ s.toList) :
    c ∉ joined sep l := by
  intro hc
  induction l with
  | nil => cases hc
  | cons a l ih =>
    cases l with
    | nil =>
      rw [joined, List.map_singleton, List.intercalate_singleton] at hc
      exact h a List.mem_cons_self hc
    | cons b l =>
      rw [joined, List.map_cons, List.intercalate_cons_of_ne_nil (by simp), List.append_assoc,
        List.mem_append, List.mem_append] at hc
      rcases hc with hc | hc | hc
      · exact h a List.mem_cons_self hc
      · exact hne (List.mem_singleton.mp hc)
      · exact ih (fun s hs => h s (List.mem_cons_of_mem a hs)) hc

/-- Pods with one key have the same labels, and are on the host network alike. -/
theorem same_of_key (h : podGroupKey p = podGroupKey q) :
    (labelTexts p).Perm (labelTexts q) ∧ p.hostNetwork = q.hostNetwork := by
  have hbar : ∀ p : Pod, '|' ∉ joined ',' (sortStrings (labelTexts p)) := by
    intro p
    apply notMem_joined (by decide)
    intro s hs
    obtain ⟨x, hx, rfl⟩ := List.mem_map.mp (mem_sortStrings.mp hs)
    obtain ⟨hk, hv⟩ := p.labels_valid x hx
    exact notMem_labelText hk hv (by decide) (by decide)
  obtain ⟨hlabels, hrest⟩ := append_cons_inj (hbar p) (hbar q) (String.ofList_inj.mp h)
  refine ⟨perm_of_joined (labelTexts_ok p) (labelTexts_ok q) hlabels, ?_⟩
  have hlast := congrArg List.reverse hrest
  simp only [List.reverse_append, List.reverse_cons, List.append_assoc] at hlast
  cases hp : p.hostNetwork <;> cases hq : q.hostNetwork <;> simp [hp, hq] at hlast ⊢

theorem labels_of_key (h : podGroupKey p = podGroupKey q) (k : String) :
    (p.labels.get k).map Prod.snd = (q.labels.get k).map Prod.snd := by
  have hsub : ∀ {p q : Pod}, (labelTexts p).Perm (labelTexts q) → ∀ v, (k, v) ∈ p.labels.rows →
      (k, v) ∈ q.labels.rows := by
    intro p q hperm v hv
    have htext : k ++ "=" ++ v ∈ labelTexts q := hperm.mem_iff.mp (List.mem_map.mpr ⟨_, hv, rfl⟩)
    obtain ⟨x, hx, heq⟩ := List.mem_map.mp htext
    obtain ⟨rfl, rfl⟩ := labelText_inj (q.labels_valid x hx).1 (p.labels_valid _ hv).1 heq
    exact hx
  have hperm := (same_of_key h).1
  have hiff : ∀ v, (p.labels.get k).map Prod.snd = some v ↔ (q.labels.get k).map Prod.snd = some v := by
    intro v
    rw [← Dict.mem_rows (x := (k, v)), ← Dict.mem_rows (x := (k, v))]
    exact ⟨hsub hperm v, hsub hperm.symm v⟩
  exact Option.ext hiff

end Key

section Grouping
variable {ns : String} {nsLabels : Option Labels} {done pods ms : List Pod} {p q : Pod} {g : Group}
  {acc : Dict String ℕ × List Group} {ks : List String} {k : String}

/-- The group of some pods: one of them stands for all, with the addresses of all. -/
structure GroupOf (ns : String) (nsLabels : Option Labels) (ms : List Pod) (g : Group) : Prop where
  rep : ∃ p ∈ ms, g.ep =
    { netpolPodEndpoint ns nsLabels p with
      pod := "", ips := ms.flatMap fun p => (netpolPodEndpoint ns nsLabels p).ips }
  pods : g.pods = ms.map Pod.name

def members (k : String) (pods : List Pod) : List Pod := pods.filter fun p => podGroupKey p = k

/-- The loop over the pods: `ks` are the keys met, each with its group. -/
structure Grouped (ns : String) (nsLabels : Option Labels) (done : List Pod) (ks : List String)
    (acc : Dict String ℕ × List Group) : Prop where
  nodup : ks.Nodup
  keys : ∀ p ∈ done, podGroupKey p ∈ ks
  index : ∀ k i, (acc.1.get k).map Prod.snd = some i ↔ ks[i]? = some k
  length : acc.2.length = ks.length
  groups : ∀ (i : ℕ) k g, ks[i]? = some k → acc.2[i]? = some g → GroupOf ns nsLabels (members k done) g

theorem members_append_of_eq (h : podGroupKey p = k) : members k (done ++ [p]) = members k done ++ [p] := by
  simp [members, h]

theorem members_append_of_ne (h : podGroupKey p ≠ k) : members k (done ++ [p]) = members k done := by
  simp [members, h]

/-- A pod with a key that a pod before it has. -/
theorem GroupOf.join (h : GroupOf ns nsLabels ms g) : GroupOf ns nsLabels (ms ++ [p])
    { g with pods := g.pods ++ [p.name]
             ep := { g.ep with ips := g.ep.ips ++ (netpolPodEndpoint ns nsLabels p).ips } } := by
  obtain ⟨q, hq, hep⟩ := h.rep
  refine ⟨⟨q, List.mem_append_left _ hq, ?_⟩, ?_⟩
  · rw [hep, List.flatMap_append, List.flatMap_singleton]
  · rw [h.pods, List.map_append, List.map_singleton]

theorem getElem?_concat_eq_some {α : Type*} {l : List α} {a b : α} {i : ℕ} :
    (l ++ [a])[i]? = some b ↔ l[i]? = some b ∨ i = l.length ∧ a = b := by
  rcases lt_trichotomy i l.length with hi | rfl | hi
  · rw [List.getElem?_append_left hi]
    simp [hi.ne]
  · simp
  · rw [List.getElem?_eq_none (by simp; omega), List.getElem?_eq_none hi.le]
    simp [hi.ne']

theorem Grouped.step (h : Grouped ns nsLabels done ks acc) (p : Pod) :
    ∃ ks, Grouped ns nsLabels (done ++ [p]) ks (joinGroup ns nsLabels acc p) := by
  cases hget : acc.1.get (podGroupKey p) with
  | some x =>
    have hkey : ks[x.2]? = some (podGroupKey p) := (h.index _ _).mp (by rw [hget]; rfl)
    have hstep : joinGroup ns nsLabels acc p = (acc.1, acc.2.modify x.2 fun g =>
        { g with pods := g.pods ++ [p.name]
                 ep := { g.ep with ips := g.ep.ips ++ (netpolPodEndpoint ns nsLabels p).ips } }) := by
      rw [joinGroup]
      dsimp only
      rw [hget]
    rw [hstep]
    refine ⟨ks, h.nodup, ?_, h.index, by rw [List.length_modify, h.length], ?_⟩
    · intro q hq
      rcases List.mem_append.mp hq with hq | hq
      · exact h.keys q hq
      · rw [List.mem_singleton.mp hq]
        exact List.mem_of_getElem? hkey
    · intro i k g hk hg
      by_cases hi : x.2 = i
      · subst hi
        obtain rfl : podGroupKey p = k := Option.some.inj (hkey.symm.trans hk)
        rw [List.getElem?_modify_eq] at hg
        obtain ⟨g₀, hg₀, rfl⟩ := Option.map_eq_some_iff.mp hg
        rw [members_append_of_eq rfl]
        exact (h.groups _ _ _ hk hg₀).join
      · have hne : podGroupKey p ≠ k := by
          rintro rfl
          exact hi ((List.getElem?_inj (List.getElem?_eq_some_iff.mp hkey).1 h.nodup).mp (hkey.trans hk.symm))
        rw [List.getElem?_modify_ne _ _ hi] at hg
        rw [members_append_of_ne hne]
        exact h.groups i k g hk hg
  | none =>
    have hnew : podGroupKey p ∉ ks := by
      intro hmem
      obtain ⟨i, hi⟩ := List.getElem?_of_mem hmem
      have hsome := (h.index _ _).mpr hi
      rw [hget] at hsome
      cases hsome
    have hstep : joinGroup ns nsLabels acc p = (acc.1.set (podGroupKey p) acc.2.length,
        acc.2 ++ [⟨{ netpolPodEndpoint ns nsLabels p with pod := "" }, [p.name]⟩]) := by
      rw [joinGroup]
      dsimp only
      rw [hget]
    have hnone : members (podGroupKey p) done = [] := by
      rw [members, List.filter_eq_nil_iff]
      intro q hq hkey
      exact hnew (of_decide_eq_true hkey ▸ h.keys q hq)
    rw [hstep]
    refine ⟨ks ++ [podGroupKey p], ?_, ?_, ?_, ?_, ?_⟩
    · rw [List.nodup_append_comm]
      exact List.nodup_cons.mpr ⟨hnew, h.nodup⟩
    · intro q hq
      rcases List.mem_append.mp hq with hq | hq
      · exact List.mem_append_left _ (h.keys q hq)
      · rw [List.mem_singleton.mp hq]
        exact List.mem_append_right _ List.mem_cons_self
    · intro k i
      rw [getElem?_concat_eq_some]
      by_cases hk : podGroupKey p = k
      · subst hk
        have hold : ks[i]? ≠ some (podGroupKey p) := fun hi => hnew (List.mem_of_getElem? hi)
        rw [Dict.get_set_self, h.length]
        simp [hold, eq_comm]
      · rw [Dict.get_set_ne hk, h.index]
        simp [hk]
    · rw [List.length_append, List.length_append, h.length]
      rfl
    · intro i k g hk hg
      rw [getElem?_concat_eq_some] at hk hg
      rcases hk with hk | ⟨rfl, rfl⟩
      · have hi := (List.getElem?_eq_some_iff.mp hk).1
        have hne : podGroupKey p ≠ k := by
          rintro rfl
          exact hnew (List.mem_of_getElem? hk)
        have hold : acc.2[i]? = some g := by
          rw [h.length] at hg
          exact hg.resolve_right fun hlast => absurd hlast.1 hi.ne
        rw [members_append_of_ne hne]
        exact h.groups i k g hk hold
      · have hlast : acc.2[ks.length]? = none := List.getElem?_eq_none h.length.le
        rw [hlast] at hg
        obtain ⟨-, rfl⟩ := hg.resolve_left nofun
        rw [members_append_of_eq rfl, hnone]
        exact ⟨⟨p, List.mem_singleton_self p, by simp⟩, rfl⟩

theorem grouped_groupsOf (ns : String) (nsLabels : Option Labels) (pods : List Pod) :
    ∃ ks acc, Grouped ns nsLabels pods ks acc ∧ acc.2 = groupsOf ns nsLabels pods := by
  suffices hrun : ∀ (rest done : List Pod) ks acc, Grouped ns nsLabels done ks acc →
      ∃ ks, Grouped ns nsLabels (done ++ rest) ks (rest.foldl (joinGroup ns nsLabels) acc) by
    obtain ⟨ks, hgrouped⟩ := hrun pods [] [] (Table.empty, []) ⟨List.nodup_nil, by simp, by simp, rfl, by simp⟩
    exact ⟨ks, _, hgrouped, rfl⟩
  intro rest
  induction rest with
  | nil =>
    intro done ks acc h
    rw [List.append_nil]
    exact ⟨ks, h⟩
  | cons p rest ih =>
    intro done ks acc h
    obtain ⟨ks', hstep⟩ := h.step p
    rw [List.foldl_cons, List.append_cons]
    exact ih (done ++ [p]) ks' _ hstep

/-- A pod's name is in the group of its key and in no other. -/
theorem mem_members_of_name (hnames : (pods.map Pod.name).Nodup) (hp : p ∈ pods)
    (h : p.name ∈ (members k pods).map Pod.name) : podGroupKey p = k := by
  obtain ⟨q, hq, hname⟩ := List.mem_map.mp h
  obtain ⟨hq, hkey⟩ := List.mem_filter.mp hq
  obtain rfl := List.inj_on_of_nodup_map hnames hq hp hname
  exact of_decide_eq_true hkey

theorem existsUnique_group (ns : String) (nsLabels : Option Labels) (hnames : (pods.map Pod.name).Nodup)
    (hp : p ∈ pods) : ∃! i : ℕ, ∃ g, (groupsOf ns nsLabels pods)[i]? = some g ∧ p.name ∈ g.pods := by
  obtain ⟨ks, acc, hgrouped, hgroups⟩ := grouped_groupsOf ns nsLabels pods
  rw [← hgroups]
  obtain ⟨i, hi⟩ := List.getElem?_of_mem (hgrouped.keys p hp)
  have hlt : i < acc.2.length := by
    rw [hgrouped.length]
    exact (List.getElem?_eq_some_iff.mp hi).1
  have hg := List.getElem?_eq_getElem hlt
  refine ⟨i, ⟨acc.2[i], hg, ?_⟩, ?_⟩
  · rw [(hgrouped.groups i _ _ hi hg).pods]
    exact List.mem_map_of_mem (List.mem_filter.mpr ⟨hp, decide_eq_true rfl⟩)
  · rintro j ⟨g, hj, hmem⟩
    have hjk : j < ks.length := by
      rw [← hgrouped.length]
      exact (List.getElem?_eq_some_iff.mp hj).1
    have hkj := List.getElem?_eq_getElem hjk
    rw [(hgrouped.groups j _ _ hkj hj).pods] at hmem
    have hkey := mem_members_of_name hnames hp hmem
    have hij : ks[j]? = ks[i]? := by rw [hkj, hi, hkey]
    exact (List.getElem?_inj hjk hgrouped.nodup).mp hij

/-- A group stands for the pods it names, which share a key. -/
theorem exists_groupOf (hg : g ∈ groupsOf ns nsLabels pods) : ∃ k, GroupOf ns nsLabels (members k pods) g := by
  obtain ⟨ks, acc, hgrouped, hgroups⟩ := grouped_groupsOf ns nsLabels pods
  rw [← hgroups] at hg
  obtain ⟨i, hi⟩ := List.getElem?_of_mem hg
  have hlt : i < ks.length := by
    rw [← hgrouped.length]
    exact (List.getElem?_eq_some_iff.mp hi).1
  exact ⟨ks[i], hgrouped.groups i _ _ (List.getElem?_eq_getElem hlt) hi⟩

end Grouping
end Kubeast.Netpol
