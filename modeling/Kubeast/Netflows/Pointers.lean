import Kubeast.Foundation.Keyed
import Kubeast.Netflows.Folded

/-! The fold with the policies where the program has them, in cells that pointers name: what the flows
point to is read and never written. -/
namespace Kubeast.Netflows

variable {L : Type*} {n : ℕ}

/-- The policies that stand in memory, by their places. -/
abbrev Heap := List Policies

def cellAt (heap : Heap) (p : ℕ) : Policies := heap.getD p .empty

/-- A flow whose policies stand in one of the first `n` cells; those of `flow` are not read. -/
structure FlowCell (L : Type*) (n : ℕ) where
  flow : Flow L
  policies : Option (Fin n)

/-- A group whose policies stand in a cell; those of `group` are not read. -/
structure GroupCell where
  group : Group
  policies : Option ℕ

def Flow.withPolicies (f : Flow L) (p : Option Policies) : Flow L := { f with policies := p }

def Group.withPolicies (g : Group) (p : Option Policies) : Group := { g with policies := p }

def FlowCell.read (heap : Heap) (c : FlowCell L n) : Flow L :=
  c.flow.withPolicies (c.policies.map fun p => cellAt heap p.1)

def GroupCell.read (heap : Heap) (c : GroupCell) : Group := c.group.withPolicies (c.policies.map (cellAt heap))

section Model

/-- The function `add` of `mergePolicies`, for each of the lists. -/
def addInto (heap : Heap) (a b : ℕ) : Heap :=
  let heap := heap.set a { cellAt heap a with
    egressAllowedBy := addRefs (cellAt heap a).egressAllowedBy (cellAt heap b).egressAllowedBy }
  let heap := heap.set a { cellAt heap a with
    ingressAllowedBy := addRefs (cellAt heap a).ingressAllowedBy (cellAt heap b).ingressAllowedBy }
  let heap := heap.set a { cellAt heap a with
    egressDeniedBy := addRefs (cellAt heap a).egressDeniedBy (cellAt heap b).egressDeniedBy }
  heap.set a { cellAt heap a with
    ingressDeniedBy := addRefs (cellAt heap a).ingressDeniedBy (cellAt heap b).ingressDeniedBy }

/-- `mergePolicies`, which writes into the cell of `a` and takes a new one where `a` is nil. -/
def mergeAt (heap : Heap) (a b : Option ℕ) : Heap × Option ℕ :=
  match a, b with
  | a, none => (heap, a)
  | none, some b => (addInto (heap ++ [.empty]) heap.length b, some heap.length)
  | some a, some b => (addInto heap a b, some a)

def GroupCell.add (heap : Heap) (g : GroupCell) (c : FlowCell L n) : Heap × GroupCell :=
  let group := g.group.add (c.flow.withPolicies none)
  if c.flow.isReply then (heap, { g with group := group })
  else
    let merged := mergeAt heap g.policies (c.policies.map Fin.val)
    (merged.1, ⟨group, merged.2⟩)

def addFlowAt (s : Heap × List (String × GroupCell)) (c : FlowCell L n) : Heap × List (String × GroupCell) :=
  match s.2.lookup c.flow.groupKey with
  | some g =>
    let added := g.add s.1 c
    (added.1, Keyed.put s.2 c.flow.groupKey added.2)
  | none =>
    let added := GroupCell.add s.1 ⟨c.flow.newGroup, none⟩ c
    (added.1, s.2 ++ [(c.flow.groupKey, added.2)])

def dropSenderHalvesAt (groups : List GroupCell) : List GroupCell :=
  let dropped := (groups.filter fun g =>
    g.group.verdict = "DROPPED" && g.group.observed.contains "ingress").map fun g => connKey g.group
  groups.filter fun g =>
    !(g.group.verdict = "FORWARDED" && g.group.observed = ["egress"] && dropped.contains (connKey g.group))

/-- `group`, with the memory it leaves. -/
def groupAt (heap : Heap) (flows : List (FlowCell L n)) : Heap × List GroupCell :=
  let s := flows.foldl addFlowAt (heap, [])
  (s.1, dropSenderHalvesAt (s.2.map Prod.snd))

end Model

section Cells
variable {heap heap' : Heap} {a b p : ℕ}

theorem cellAt_set_self (h : a < heap.length) (c : Policies) : cellAt (heap.set a c) a = c := by
  simp [cellAt, h]

theorem cellAt_set_ne (h : p ≠ a) (c : Policies) : cellAt (heap.set a c) p = cellAt heap p := by
  simp [cellAt, List.getElem?_set_ne (Ne.symm h)]

theorem cellAt_append (h : p < heap.length) (cells : Heap) : cellAt (heap ++ cells) p = cellAt heap p := by
  simp [cellAt, List.getElem?_append_left h]

@[simp] theorem length_addInto : (addInto heap a b).length = heap.length := by simp [addInto]

theorem cellAt_addInto_ne (h : p ≠ a) : cellAt (addInto heap a b) p = cellAt heap p := by
  simp only [addInto, cellAt_set_ne h]

theorem cellAt_addInto_self (ha : a < heap.length) (hab : b ≠ a) : some (cellAt (addInto heap a b) a) =
    mergePolicies (some (cellAt heap a)) (some (cellAt heap b)) := by
  simp only [addInto, cellAt_set_self, cellAt_set_ne hab, List.length_set, ha]
  rfl

/-- What a merge leaves: the cells of `heap` but for the one of `a`, and the merged policies. -/
theorem mergeAt_spec {a b : Option ℕ} (ha : ∀ p ∈ a, p < heap.length) (hb : ∀ p ∈ b, p < heap.length)
    (hab : ∀ p ∈ b, p ∉ a) :
    heap.length ≤ (mergeAt heap a b).1.length ∧
      (∀ p < heap.length, p ∉ a → cellAt (mergeAt heap a b).1 p = cellAt heap p) ∧
      (∀ p ∈ (mergeAt heap a b).2, p < (mergeAt heap a b).1.length ∧ (p ∈ a ∨ heap.length ≤ p)) ∧
      (mergeAt heap a b).2.map (cellAt (mergeAt heap a b).1) =
        mergePolicies (a.map (cellAt heap)) (b.map (cellAt heap)) := by
  match a, b with
  | a, none => exact ⟨le_rfl, fun _ _ _ => rfl, fun p hp => ⟨ha p hp, .inl hp⟩, rfl⟩
  | some a, some b =>
    have ha := ha a rfl
    have hne : b ≠ a := fun h => hab b rfl (h ▸ rfl)
    refine ⟨length_addInto.ge, fun p _ hp => cellAt_addInto_ne fun h => hp (h ▸ rfl), ?_, ?_⟩
    · rintro p ⟨⟩
      exact ⟨ha.trans_eq length_addInto.symm, .inl rfl⟩
    · exact cellAt_addInto_self ha hne
  | none, some b =>
    have hb := hb b rfl
    have hlength : (heap ++ [Policies.empty]).length = heap.length + 1 := List.length_append
    refine ⟨?_, fun p hp _ => ?_, ?_, ?_⟩
    · simp [mergeAt]
    · exact (cellAt_addInto_ne hp.ne).trans (cellAt_append hp _)
    · rintro p ⟨⟩
      simp [mergeAt]
    · have hnew : cellAt (heap ++ [Policies.empty]) heap.length = .empty := by simp [cellAt]
      have hmerge := @cellAt_addInto_self (heap ++ [Policies.empty]) heap.length b (by simp) hb.ne
      rw [hnew, cellAt_append hb] at hmerge
      exact hmerge

end Cells

section Refinement
variable {heap₀ heap heap' : Heap}

/-- The cells of the flows are as they were, and the groups read as the fold has them, each with a cell
of its own. -/
structure Refines (heap₀ : Heap) (s : Heap × List (String × GroupCell)) (groups : List (String × Group)) : Prop where
  kept : ∀ p < heap₀.length, cellAt s.1 p = cellAt heap₀ p
  grown : heap₀.length ≤ s.1.length
  reads : s.2.map (fun g => (g.1, g.2.read s.1)) = groups
  own : ∀ g ∈ s.2, ∀ p ∈ g.2.policies, heap₀.length ≤ p ∧ p < s.1.length
  apart : s.2.Pairwise fun g g' => ∀ p ∈ g.2.policies, p ∉ g'.2.policies

/-- What a flow does to its group, the policies apart. -/
theorem add_withPolicies (g : Group) (f : Flow L) (p q : Option Policies) :
    (g.withPolicies p).add (f.withPolicies q) =
      (g.add (f.withPolicies none)).withPolicies (if f.isReply then p else mergePolicies p q) := by
  rw [Group.add_eq, Group.add_eq]
  rfl

theorem add_spec (g : GroupCell) (c : FlowCell L heap₀.length)
    (hkept : ∀ p < heap₀.length, cellAt heap p = cellAt heap₀ p) (hgrown : heap₀.length ≤ heap.length)
    (hown : ∀ p ∈ g.policies, heap₀.length ≤ p ∧ p < heap.length) :
    heap.length ≤ (g.add heap c).1.length ∧
      (∀ p < heap.length, p ∉ g.policies → cellAt (g.add heap c).1 p = cellAt heap p) ∧
      (∀ p ∈ (g.add heap c).2.policies, p < (g.add heap c).1.length ∧ (p ∈ g.policies ∨ heap.length ≤ p)) ∧
      (g.add heap c).2.read (g.add heap c).1 = (g.read heap).add (c.read heap₀) := by
  have hc : ∀ p ∈ c.policies.map Fin.val, p < heap₀.length := by
    intro p hp
    obtain ⟨i, -, rfl⟩ := Option.mem_map.mp hp
    exact i.isLt
  have hread : (c.policies.map Fin.val).map (cellAt heap) = c.policies.map fun p : Fin _ => cellAt heap₀ p.1 := by
    rw [Option.map_map]
    exact Option.map_congr fun p _ => hkept p.1 p.isLt
  obtain ⟨hlength, hframe, hpointers, hmerged⟩ := mergeAt_spec (a := g.policies) (fun p hp => (hown p hp).2)
    (fun p hp => (hc p hp).trans_le hgrown) fun p hp hp' => (hc p hp).not_ge (hown p hp').1
  rw [hread] at hmerged
  rw [GroupCell.read, GroupCell.read, FlowCell.read, add_withPolicies]
  cases hreply : c.flow.isReply
  · have hadd : g.add heap c = _ := if_neg (ne_true_of_eq_false hreply)
    rw [hadd]
    exact ⟨hlength, hframe, hpointers, congrArg (Group.withPolicies _) hmerged⟩
  · have hadd : g.add heap c = _ := if_pos hreply
    rw [hadd]
    exact ⟨le_rfl, fun _ _ _ => rfl, fun p hp => ⟨(hown p hp).2, .inl hp⟩, rfl⟩

theorem read_congr {g : GroupCell} (h : ∀ p ∈ g.policies, cellAt heap p = cellAt heap' p) :
    g.read heap = g.read heap' := by
  rw [GroupCell.read, GroupCell.read, Option.map_congr h]

variable {s : Heap × List (String × GroupCell)} {groups : List (String × Group)}

theorem Refines.keys (h : Refines heap₀ s groups) : s.2.map Prod.fst = groups.map Prod.fst := by
  rw [← h.reads, List.map_map]
  rfl

/-- A flow of a connection that has a group. -/
theorem Refines.step_some (h : Refines heap₀ s groups) (hkeys : (groups.map Prod.fst).Nodup)
    (c : FlowCell L heap₀.length) {g : GroupCell} (hlook : s.2.lookup c.flow.groupKey = some g) :
    Refines heap₀ ((g.add s.1 c).1, Keyed.put s.2 c.flow.groupKey (g.add s.1 c).2)
      (addFlow groups (c.read heap₀)) := by
  have hnodup : (s.2.map Prod.fst).Nodup := by rw [h.keys]; exact hkeys
  have hmem := Keyed.mem_of_lookup hlook
  generalize hkey : c.flow.groupKey = key at hlook hmem
  have heq : ∀ m ∈ s.2, m.1 = key → m = (key, g) := fun m hm hk =>
    List.inj_on_of_nodup_map hnodup hm hmem hk
  obtain ⟨hlength, hframe, hpointers, hread⟩ := add_spec g c h.kept h.grown (h.own _ hmem)
  have hsome : (s.2.lookup key).isSome = true := by rw [hlook]; rfl
  have hany : (groups.any fun m => m.1 = (c.read heap₀).groupKey) = true := by
    rw [Buckets.any_key, ← h.keys]
    exact hkey ▸ List.mem_map_of_mem hmem
  have hapart := (List.pairwise_map.mp hnodup).and h.apart
  have hothers : ∀ m ∈ s.2, m.1 ≠ key → ∀ p ∈ m.2.policies, p ∉ g.policies := by
    have hlater : s.2.Pairwise fun m m' => m.1 ≠ m'.1 → ∀ p ∈ m.2.policies, p ∉ m'.2.policies := by
      refine h.apart.imp ?_
      intro m m' hap _
      exact hap
    have hearlier : s.2.Pairwise (flip fun m m' => m.1 ≠ m'.1 → ∀ p ∈ m.2.policies, p ∉ m'.2.policies) := by
      refine hlater.imp ?_
      intro m m' hap hne p hp hp'
      exact hap hne.symm p hp' hp
    exact fun m hm => hlater.forall_of_forall_of_flip (fun _ _ hne => absurd rfl hne) hearlier hm hmem
  rw [Keyed.put, if_pos hsome, addFlow, if_pos hany]
  have hkey' : (c.read heap₀).groupKey = key := hkey
  refine ⟨fun p hp => ?_, h.grown.trans hlength, ?_, ?_, ?_⟩
  · rw [hframe p (hp.trans_le h.grown) fun hmem' => (h.own _ hmem p hmem').1.not_gt hp, h.kept p hp]
  · rw [← h.reads, List.map_map, List.map_map, hkey']
    refine List.map_congr_left fun m hm => ?_
    simp only [Function.comp_apply]
    split_ifs with hk
    · rw [heq m hm hk]
      exact congrArg (key, ·) hread
    · refine congrArg (m.1, ·) (read_congr fun p hp => ?_)
      exact hframe p (h.own m hm p hp).2 (hothers m hm hk p hp)
  · intro m hm p hp
    obtain ⟨m', hm', rfl⟩ := List.mem_map.mp hm
    split_ifs at hp with hk
    · obtain ⟨hlt, hold | hnew⟩ := hpointers p hp
      · exact ⟨(h.own _ hmem p hold).1, hlt⟩
      · exact ⟨h.grown.trans hnew, hlt⟩
    · exact ⟨(h.own m' hm' p hp).1, (h.own m' hm' p hp).2.trans_le hlength⟩
  · rw [List.pairwise_map]
    refine hapart.imp_of_mem fun {m m'} hm hm' ⟨hne, hap⟩ p hp hp' => ?_
    have hfresh : ∀ m ∈ s.2, m.1 ≠ key → p ∈ m.2.policies → p ∉ (g.add s.1 c).2.policies := by
      intro m hm hk hpm hpg
      obtain ⟨-, hold | hnew⟩ := hpointers p hpg
      · exact hothers m hm hk p hpm hold
      · exact (h.own m hm p hpm).2.not_ge hnew
    split_ifs at hp hp' with hk hk' hk'
    · exact hne (hk.trans hk'.symm)
    · exact hfresh m' hm' hk' hp' hp
    · exact hfresh m hm hk hp hp'
    · exact hap p hp hp'

/-- A flow of a connection that is new. -/
theorem Refines.step_none (h : Refines heap₀ s groups) (c : FlowCell L heap₀.length)
    (hlook : s.2.lookup c.flow.groupKey = none) :
    Refines heap₀ ((GroupCell.add s.1 ⟨c.flow.newGroup, none⟩ c).1,
      s.2 ++ [(c.flow.groupKey, (GroupCell.add s.1 ⟨c.flow.newGroup, none⟩ c).2)])
      (addFlow groups (c.read heap₀)) := by
  obtain ⟨hlength, hframe, hpointers, hread⟩ := add_spec ⟨c.flow.newGroup, none⟩ c h.kept h.grown nofun
  have hnot : ¬(groups.any fun m => m.1 = (c.read heap₀).groupKey) = true := by
    rw [Buckets.any_key, ← h.keys]
    exact Keyed.lookup_eq_none.mp hlook
  have hfresh : ∀ p ∈ (GroupCell.add s.1 ⟨c.flow.newGroup, none⟩ c).2.policies, s.1.length ≤ p :=
    fun p hp => (hpointers p hp).2.resolve_left nofun
  rw [addFlow, if_neg hnot]
  refine ⟨fun p hp => ?_, h.grown.trans hlength, ?_, ?_, ?_⟩
  · rw [hframe p (hp.trans_le h.grown) nofun, h.kept p hp]
  · rw [List.map_append, ← h.reads]
    refine congrArg₂ (· ++ ·) (List.map_congr_left fun m hm => ?_) ?_
    · exact congrArg (m.1, ·) (read_congr fun p hp => hframe p (h.own m hm p hp).2 nofun)
    · exact congrArg (fun g => [(c.flow.groupKey, g)]) hread
  · intro m hm p hp
    rcases List.mem_append.mp hm with hm | hm
    · exact ⟨(h.own m hm p hp).1, (h.own m hm p hp).2.trans_le hlength⟩
    · rw [List.mem_singleton.mp hm] at hp
      exact ⟨h.grown.trans (hfresh p hp), (hpointers p hp).1⟩
  · refine List.pairwise_append.mpr ⟨h.apart, List.pairwise_singleton _ _, fun m hm m' hm' p hp hp' => ?_⟩
    rw [List.mem_singleton.mp hm'] at hp'
    exact (h.own m hm p hp).2.not_ge (hfresh p hp')

/-- The run, by induction on the flows read so far. -/
theorem refines_run (heap₀ : Heap) (cells : List (FlowCell L heap₀.length)) :
    Refines heap₀ (cells.foldl addFlowAt (heap₀, [])) ((cells.map (FlowCell.read heap₀)).foldl addFlow []) := by
  induction cells using List.reverseRecOn with
  | nil => exact ⟨fun _ _ => rfl, le_rfl, rfl, List.forall_mem_nil _, List.Pairwise.nil⟩
  | append_singleton cells c ih =>
    rw [List.foldl_concat, List.map_append, List.foldl_append, addFlowAt]
    cases hlook : (cells.foldl addFlowAt (heap₀, [])).2.lookup c.flow.groupKey with
    | some g => exact ih.step_some (by rw [addFlow_eq]; exact Buckets.nodup_foldl _) c hlook
    | none => exact ih.step_none c hlook

theorem map_read_dropSenderHalvesAt (heap : Heap) (groups : List GroupCell) :
    (dropSenderHalvesAt groups).map (GroupCell.read heap) = dropSenderHalves (groups.map (GroupCell.read heap)) := by
  simp only [dropSenderHalvesAt, dropSenderHalves, List.filter_map, List.map_map]
  rfl

/-- The answer, read from the memory that is left: the groups of the flows as they were read, in cells
that no flow points to. -/
theorem groupAt_spec (heap₀ : Heap) (cells : List (FlowCell L heap₀.length)) :
    (groupAt heap₀ cells).2.map (GroupCell.read (groupAt heap₀ cells).1) = group (cells.map (FlowCell.read heap₀)) ∧
      (∀ p < heap₀.length, cellAt (groupAt heap₀ cells).1 p = cellAt heap₀ p) ∧
      ∀ g ∈ (groupAt heap₀ cells).2, ∀ p ∈ g.policies, heap₀.length ≤ p := by
  have h := refines_run heap₀ cells
  refine ⟨?_, h.kept, fun g hg p hp => ?_⟩
  · rw [group, ← h.reads, List.map_map, groupAt, map_read_dropSenderHalvesAt, List.map_map]
    rfl
  · obtain ⟨m, hm, rfl⟩ := List.mem_map.mp (List.mem_of_mem_filter hg)
    exact (h.own m hm p hp).1

/-- Folding flows into connections loses and repeats none, and writes to no policies of theirs. -/
theorem group_repeats_none (heap : Heap) (cells : List (FlowCell L heap.length))
    (hnewest : (cells.map (FlowCell.read heap)).Pairwise fun f f' => f'.time ≤ f.time) :
    Folds (cells.map (FlowCell.read heap)) (folded (cells.map (FlowCell.read heap))) ∧
      (∀ g ∈ folded (cells.map (FlowCell.read heap)), g ∉ group (cells.map (FlowCell.read heap)) →
        g.verdict = "FORWARDED" ∧ g.observed = ["egress"] ∧
          ∃ g' ∈ folded (cells.map (FlowCell.read heap)), g'.verdict = "DROPPED" ∧ "ingress" ∈ g'.observed ∧
            connKey g' = connKey g ∧ (g'.Plain → g.Plain → SameConnection g' g)) ∧
      (groupAt heap cells).2.map (GroupCell.read (groupAt heap cells).1) =
        group (cells.map (FlowCell.read heap)) ∧
      (∀ p < heap.length, cellAt (groupAt heap cells).1 p = cellAt heap p) ∧
      ∀ g ∈ (groupAt heap cells).2, ∀ p ∈ g.policies, heap.length ≤ p := by
  refine ⟨folds_folded hnewest, fun g hg hout => ?_, groupAt_spec heap cells⟩
  obtain ⟨hverdict, hobserved, g', hg', hdropped, hingress, hconn⟩ := of_left_out hg hout
  exact ⟨hverdict, hobserved, g', hg', hdropped, hingress, hconn, fun hplain' hplain =>
    hplain'.sameConnection hplain hconn⟩

def podEnd (pod : String) (port : ℕ) : End := ⟨"shop", pod, none, "10.0.0.1", port, [], "", 0, false⟩

def halfFlow (time : ℤ) (verdict direction : String) : Flow Unit where
  time := time
  verdict := verdict
  dropReason := ""
  direction := direction
  isReply := false
  protocol := "TCP"
  source := podEnd "web" 40000
  destination := podEnd "db" 5432
  tcpFlags := ""
  policies := none
  l7 := none
  node := ""
  count := 0
  replyCount := 0

/-- Both halves of a connection, the receiving side's first; one cell of policies. -/
def halves : List (FlowCell Unit 1) :=
  [⟨halfFlow 2 "DROPPED" "ingress", some 0⟩, ⟨halfFlow 1 "FORWARDED" "egress", some 0⟩]

theorem halves_repeat_none :
    ((folded (halves.map (FlowCell.read [.empty]))).map Group.size).sum = 2 ∧
      cellAt (groupAt [.empty] halves).1 0 = .empty := by
  have h := group_repeats_none [.empty] halves (by decide)
  exact ⟨h.1.total, h.2.2.2.1 0 (by decide)⟩

end Refinement

end Kubeast.Netflows
