import Kubeast.Foundation.Buckets
import Kubeast.Foundation.Text
import Kubeast.Netflows.Keep

/-! The fold of flows into connections loses and repeats none. -/
namespace Kubeast.Netflows
open Buckets

variable {L : Type*} {f r : Flow L} {g g' : Group} {flows : List (Flow L)}

/-- What a flow counts for in its group. -/
def Flow.weight (f : Flow L) : ℤ :=
  if f.isReply then 1 else if 0 < f.count then f.count + f.replyCount else 1

/-- The flows of a group and those back. -/
def Group.size (g : Group) : ℤ := g.count + g.replies

def Group.key (g : Group) : String :=
  "#".intercalate [endKey g.source, endKey g.destination, toString g.destination.port, g.protocol, g.verdict,
    g.dropReason]

/-- The groups before the sender halves are left out. -/
def folded (flows : List (Flow L)) : List Group := (flows.foldl addFlow []).map Prod.snd

/-- The flows of a group. -/
def Group.members (g : Group) (flows : List (Flow L)) : List (Flow L) := flows.filter (Flow.groupKey · = g.key)

/-- The lists of policies, by what they allow or deny. -/
def Policies.lists : List (Policies → List PolicyRef) :=
  [egressAllowedBy, ingressAllowedBy, egressDeniedBy, ingressDeniedBy]

section Add

theorem Group.key_add (g : Group) (f : Flow L) : (g.add f).key = g.key := by
  rw [Group.add_eq]
  rfl

theorem Group.last_add (g : Group) (f : Flow L) : (g.add f).last = g.last := by rw [Group.add_eq]

theorem Group.first_add (g : Group) (f : Flow L) : (g.add f).first = min g.first f.time := by
  rw [Group.add_eq]

theorem Group.size_add (g : Group) (f : Flow L) :
    (g.add f).size = g.size + f.weight := by
  rw [Group.size, Group.add_eq, Group.size, Flow.weight]
  dsimp only
  split_ifs <;> omega

theorem Group.policies_add (g : Group) (f : Flow L) :
    (g.add f).policies = if f.isReply then g.policies else mergePolicies g.policies f.policies := by
  rw [Group.add_eq]

end Add

section Policies
variable {dst src : List PolicyRef} {ref : PolicyRef} {list : Policies → List PolicyRef}

theorem nodup_addRefs (h : dst.Nodup) : (addRefs dst src).Nodup := by
  unfold addRefs
  induction src generalizing dst with
  | nil => exact h
  | cons p src ih =>
    rw [List.foldl_cons]
    split_ifs with hp
    · exact ih h
    · refine ih (List.nodup_append.mpr ⟨h, List.nodup_singleton p, ?_⟩)
      rintro x hx y hy rfl
      exact hp (List.mem_singleton.mp hy ▸ hx)

theorem list_mergePolicies (hlist : list ∈ Policies.lists) (a b : Option Policies) :
    list ((mergePolicies a b).getD .empty) = addRefs (list (a.getD .empty)) (list (b.getD .empty)) := by
  simp only [Policies.lists, List.mem_cons, List.not_mem_nil, or_false] at hlist
  cases b
  · rcases hlist with rfl | rfl | rfl | rfl <;> rfl
  · rcases hlist with rfl | rfl | rfl | rfl <;> rfl

theorem nodup_foldl_add (hlist : list ∈ Policies.lists) (flows : List (Flow L))
    (h : (list (g.policies.getD .empty)).Nodup) :
    (list ((flows.foldl Group.add g).policies.getD .empty)).Nodup := by
  induction flows generalizing g with
  | nil => exact h
  | cons f flows ih =>
    rw [List.foldl_cons]
    refine ih ?_
    rw [Group.policies_add]
    split_ifs
    · exact h
    · rw [list_mergePolicies hlist]
      exact nodup_addRefs h

theorem mem_foldl_add (hlist : list ∈ Policies.lists) (flows : List (Flow L)) :
    ref ∈ list ((flows.foldl Group.add g).policies.getD .empty) ↔
      ref ∈ list (g.policies.getD .empty) ∨
        ∃ f ∈ flows, f.isReply = false ∧ ref ∈ list (f.policies.getD .empty) := by
  induction flows generalizing g with
  | nil => simp
  | cons f flows ih =>
    rw [List.foldl_cons, ih, Group.policies_add, List.exists_mem_cons_iff]
    cases hreply : f.isReply
    · rw [if_neg Bool.false_ne_true, list_mergePolicies hlist, mem_addRefs, or_assoc]
      simp
    · simp

end Policies

section Times

theorem last_foldl_add (flows : List (Flow L)) (g : Group) : (flows.foldl Group.add g).last = g.last := by
  induction flows generalizing g with
  | nil => rfl
  | cons f flows ih => rw [List.foldl_cons, ih, Group.last_add]

theorem first_foldl_add (flows : List (Flow L)) (g : Group) :
    (flows.foldl Group.add g).first ≤ g.first ∧ ∀ f ∈ flows, (flows.foldl Group.add g).first ≤ f.time := by
  induction flows generalizing g with
  | nil => exact ⟨le_rfl, List.forall_mem_nil _⟩
  | cons f flows ih =>
    obtain ⟨hfirst, htimes⟩ := ih (g.add f)
    rw [Group.first_add] at hfirst
    rw [List.foldl_cons]
    exact ⟨hfirst.trans (min_le_left _ _), List.forall_mem_cons.mpr ⟨hfirst.trans (min_le_right _ _), htimes⟩⟩

theorem key_foldl_add (flows : List (Flow L)) (g : Group) : (flows.foldl Group.add g).key = g.key := by
  induction flows generalizing g with
  | nil => rfl
  | cons f flows ih => rw [List.foldl_cons, ih, Group.key_add]

end Times

section Folded

theorem addFlow_eq : (addFlow : List (String × Group) → Flow L → _) =
    bucket Flow.groupKey Flow.newGroup Group.add := rfl

/-- A group stands under its own key. -/
theorem key_of_mem {k : String} (h : (k, g) ∈ flows.foldl addFlow []) : k = g.key := by
  rw [addFlow_eq, mem_foldl] at h
  obtain ⟨f, rest, hflows, rfl⟩ := h
  have hf : f ∈ flows.filter (Flow.groupKey · = k) := hflows ▸ List.mem_cons_self
  rw [key_foldl_add]
  exact (of_decide_eq_true (List.mem_filter.mp hf).2).symm

theorem map_key_folded (flows : List (Flow L)) :
    (folded flows).map Group.key = (flows.foldl addFlow []).map Prod.fst := by
  rw [folded, List.map_map]
  exact List.map_congr_left fun _ hg => (key_of_mem hg).symm

/-- A group is the fold of its flows, from the first of them on. -/
theorem mem_folded : g ∈ folded flows ↔
    ∃ f rest, g.members flows = f :: rest ∧ g = (f :: rest).foldl Group.add f.newGroup := by
  rw [Group.members, ← mem_foldl, ← addFlow_eq, folded, List.mem_map]
  constructor
  · rintro ⟨⟨k, g⟩, hmem, rfl⟩
    exact key_of_mem hmem ▸ hmem
  · exact fun hmem => ⟨_, hmem, rfl⟩

theorem nodup_folded (flows : List (Flow L)) : ((folded flows).map Group.key).Nodup := by
  rw [map_key_folded, addFlow_eq]
  exact nodup_foldl flows

/-- Two ends with the same namespace, pod, workload and address. -/
structure End.Same (e e' : End) : Prop where
  namespace_ : e.namespace_ = e'.namespace_
  pod : e.pod = e'.pod
  workload : e.workload = e'.workload
  ip : e.ip = e'.ip

/-- The same ends, destination port and protocol. -/
structure SameConnection (g g' : Group) : Prop where
  source : g.source.Same g'.source
  destination : g.destination.Same g'.destination
  port : g.destination.port = g'.destination.port
  protocol : g.protocol = g'.protocol

theorem End.Same.endKey {e e' : End} (h : e.Same e') : endKey e = endKey e' := by
  rw [Netflows.endKey, Netflows.endKey, h.namespace_, h.pod, h.workload, h.ip]

/-- A reply to a flow: ends and ports swapped. -/
structure Flow.Answers (r f : Flow L) : Prop where
  request : f.isReply = false
  isReply : r.isReply = true
  source : r.source = f.destination
  destination : r.destination = f.source
  protocol : r.protocol = f.protocol
  verdict : r.verdict = f.verdict
  dropReason : r.dropReason = f.dropReason

theorem Flow.Answers.groupKey (h : r.Answers f) : r.groupKey = f.groupKey := by
  simp [Flow.groupKey, Flow.ends, h.request, h.isReply, h.source, h.destination, h.protocol, h.verdict,
    h.dropReason]

/-- What the groups of flows are. -/
structure Folds (flows : List (Flow L)) (groups : List Group) : Prop where
  total : (groups.map Group.size).sum = (flows.map Flow.weight).sum
  apart : groups.Pairwise fun g g' =>
    ¬(SameConnection g g' ∧ g.verdict = g'.verdict ∧ g.dropReason = g'.dropReason)
  within : ∀ g ∈ groups, g.first ≤ g.last ∧ ∀ f ∈ g.members flows, g.first ≤ f.time ∧ f.time ≤ g.last
  recent : groups.Pairwise fun g g' => g'.last ≤ g.last
  grouped : ∀ f ∈ flows, ∃! g, g ∈ groups ∧ f ∈ g.members flows
  answered : ∀ f ∈ flows, ∀ r ∈ flows, r.Answers f → ∀ g : Group, f ∈ g.members flows ↔ r ∈ g.members flows
  policies : ∀ g ∈ groups, ∀ list ∈ Policies.lists, (list (g.policies.getD .empty)).Nodup ∧
    ∀ ref, ref ∈ list (g.policies.getD .empty) ↔
      ∃ f ∈ g.members flows, f.isReply = false ∧ ref ∈ list (f.policies.getD .empty)

theorem members_sublist (g : Group) (flows : List (Flow L)) : (g.members flows).Sublist flows :=
  List.filter_sublist

theorem apart_folded (flows : List (Flow L)) : (folded flows).Pairwise fun g g' =>
    ¬(SameConnection g g' ∧ g.verdict = g'.verdict ∧ g.dropReason = g'.dropReason) := by
  refine (List.pairwise_map.mp (nodup_folded flows)).imp fun hne ⟨hconn, hverdict, hreason⟩ => hne ?_
  rw [Group.key, Group.key, hconn.source.endKey, hconn.destination.endKey, hconn.port, hconn.protocol, hverdict,
    hreason]

theorem within_folded (hflows : flows.Pairwise fun f f' => f'.time ≤ f.time) (hg : g ∈ folded flows) :
    g.first ≤ g.last ∧ ∀ f ∈ g.members flows, g.first ≤ f.time ∧ f.time ≤ g.last := by
  obtain ⟨f, rest, hmembers, rfl⟩ := mem_folded.mp hg
  obtain ⟨hfirst, htimes⟩ := first_foldl_add (f :: rest) f.newGroup
  have hnewest : ∀ f' ∈ rest, f'.time ≤ f.time := by
    have hsorted := hflows.sublist (members_sublist ((f :: rest).foldl Group.add f.newGroup) flows)
    rw [hmembers] at hsorted
    exact (List.pairwise_cons.mp hsorted).1
  rw [last_foldl_add, hmembers]
  refine ⟨hfirst, fun f' hf' => ⟨htimes f' hf', ?_⟩⟩
  rcases List.mem_cons.mp hf' with rfl | hf'
  · exact le_rfl
  · exact hnewest f' hf'

theorem recent_folded (hflows : flows.Pairwise fun f f' => f'.time ≤ f.time) :
    (folded flows).Pairwise fun g g' => g'.last ≤ g.last := by
  have hlast : ((flows.foldl addFlow []).map fun g => g.2.last).Sublist (flows.map Flow.time) := by
    rw [addFlow_eq]
    exact sublist_foldl (fun _ => rfl) Group.last_add flows
  have htimes : (flows.map Flow.time).Pairwise fun t t' => t' ≤ t := List.pairwise_map.mpr hflows
  exact List.pairwise_map.mpr (List.pairwise_map.mp (htimes.sublist hlast))

theorem grouped_folded {f : Flow L} (hf : f ∈ flows) : ∃! g, g ∈ folded flows ∧ f ∈ g.members flows := by
  have hkey : f.groupKey ∈ (folded flows).map Group.key := by
    rw [map_key_folded, addFlow_eq, mem_keys_foldl]
    exact ⟨f, hf, rfl⟩
  obtain ⟨g, hg, hgkey⟩ := List.mem_map.mp hkey
  refine ⟨g, ⟨hg, List.mem_filter.mpr ⟨hf, decide_eq_true hgkey.symm⟩⟩, ?_⟩
  rintro g' ⟨hg', hmem⟩
  have hgkey' : f.groupKey = g'.key := of_decide_eq_true (List.mem_filter.mp hmem).2
  exact List.inj_on_of_nodup_map (nodup_folded flows) hg' hg (hgkey'.symm.trans hgkey.symm)

theorem policies_folded (hg : g ∈ folded flows) {list : Policies → List PolicyRef}
    (hlist : list ∈ Policies.lists) : (list (g.policies.getD .empty)).Nodup ∧
      ∀ ref, ref ∈ list (g.policies.getD .empty) ↔
        ∃ f ∈ g.members flows, f.isReply = false ∧ ref ∈ list (f.policies.getD .empty) := by
  obtain ⟨f, rest, hmembers, rfl⟩ := mem_folded.mp hg
  have hempty : list (f.newGroup.policies.getD .empty) = [] := by
    simp only [Policies.lists, List.mem_cons, List.not_mem_nil, or_false] at hlist
    rcases hlist with rfl | rfl | rfl | rfl <;> rfl
  refine ⟨nodup_foldl_add hlist _ (hempty ▸ List.nodup_nil), fun ref => ?_⟩
  rw [mem_foldl_add hlist, hempty, hmembers]
  simp only [List.not_mem_nil, false_or]

theorem folds_folded (hflows : flows.Pairwise fun f f' => f'.time ≤ f.time) : Folds flows (folded flows) where
  total := by
    have hnew (f : Flow L) : f.newGroup.size = 0 := rfl
    rw [folded, List.map_map, addFlow_eq]
    exact sum_foldl hnew Group.size_add flows
  apart := apart_folded flows
  within _ hg := within_folded hflows hg
  recent := recent_folded hflows
  grouped _ hf := grouped_folded hf
  answered f hf r hr hanswers g := by
    simp only [Group.members, List.mem_filter, hf, hr, true_and, hanswers.groupKey]
  policies _ hg _ hlist := policies_folded hg hlist

/-- What is left out of the answer: what only the sending side saw forwarded of a connection that the
receiving side dropped. -/
theorem of_left_out (hg : g ∈ folded flows) (hout : g ∉ group flows) :
    g.verdict = "FORWARDED" ∧ g.observed = ["egress"] ∧
      ∃ g' ∈ folded flows, g'.verdict = "DROPPED" ∧ "ingress" ∈ g'.observed ∧ connKey g' = connKey g := by
  have hgroup : group flows = dropSenderHalves (folded flows) := rfl
  rw [hgroup, dropSenderHalves, List.mem_filter] at hout
  simpa [hg, and_assoc] using hout

end Folded

section Connections
variable {e e' : End}

/-- Texts that can be told apart after they are joined. -/
structure End.Plain (e : End) : Prop where
  fields : ∀ s ∈ [e.namespace_, e.pod, workloadText e.workload, e.ip], '|' ∉ s.toList ∧ '#' ∉ s.toList
  kind : ∀ w ∈ e.workload, '/' ∉ w.kind.toList

structure Group.Plain (g : Group) : Prop where
  source : g.source.Plain
  destination : g.destination.Plain
  protocol : '#' ∉ g.protocol.toList

theorem joined_inj {c : Char} {sep : String} (hsep : sep.toList = [c]) {l l' : List String}
    (hl : ∀ s ∈ l, c ∉ s.toList) (hl' : ∀ s ∈ l', c ∉ s.toList) (hne : l ≠ []) (hne' : l' ≠ [])
    (h : sep.intercalate l = sep.intercalate l') : l = l' := by
  have hlists := congrArg (·.toList.splitOn c) h
  simp only [String.toList_intercalate, hsep] at hlists
  rw [List.splitOn_intercalate c (by simpa using hl) (by simpa using hne),
    List.splitOn_intercalate c (by simpa using hl') (by simpa using hne')] at hlists
  exact List.map_injective_iff.mpr (fun _ _ => String.toList_injective) hlists

theorem workloadText_inj {w w' : Option Workload} (hw : ∀ x ∈ w, '/' ∉ x.kind.toList)
    (hw' : ∀ x ∈ w', '/' ∉ x.kind.toList) (h : workloadText w = workloadText w') : w = w' := by
  have htext (x : Workload) :
      (workloadText (some x)).toList = x.kind.toList ++ '/' :: x.name.toList := by
    simp [workloadText]
  have hlists := congrArg String.toList h
  cases w with
  | none =>
    cases w' with
    | none => rfl
    | some x =>
      rw [htext] at hlists
      simp [workloadText] at hlists
  | some x =>
    cases w' with
    | none =>
      rw [htext] at hlists
      simp [workloadText] at hlists
    | some x' =>
      rw [htext, htext] at hlists
      obtain ⟨hkind, hname⟩ := Text.append_cons_inj (hw x rfl) (hw' x' rfl) hlists
      cases x
      cases x'
      exact congrArg some ((Workload.mk.injEq ..).mpr ⟨String.toList_injective hkind, String.toList_injective hname⟩)

theorem End.Plain.same (he : e.Plain) (he' : e'.Plain) (h : endKey e = endKey e') : e.Same e' := by
  have hfields := joined_inj (by decide) (fun s hs => (he.fields s hs).1) (fun s hs => (he'.fields s hs).1)
    (List.cons_ne_nil _ _) (List.cons_ne_nil _ _) h
  simp only [List.cons.injEq, and_true] at hfields
  obtain ⟨hns, hpod, hworkload, hip⟩ := hfields
  exact ⟨hns, hpod, workloadText_inj he.kind he'.kind hworkload, hip⟩

theorem End.Plain.endKey_hash (he : e.Plain) : '#' ∉ (endKey e).toList := by
  have hfields := fun s hs => (he.fields s hs).2
  simp only [List.mem_cons, List.not_mem_nil, or_false, forall_eq_or_imp, forall_eq] at hfields
  simp [endKey, hfields]

/-- The key of a connection tells connections apart. -/
theorem Group.Plain.sameConnection (hg : g.Plain) (hg' : g'.Plain) (h : connKey g = connKey g') :
    SameConnection g g' := by
  have hfields (g : Group) (hg : g.Plain) :
      ∀ s ∈ [endKey g.source, endKey g.destination, toString g.destination.port, g.protocol], '#' ∉ s.toList := by
    simp only [List.mem_cons, List.not_mem_nil, or_false, forall_eq_or_imp, forall_eq]
    exact ⟨hg.source.endKey_hash, hg.destination.endKey_hash, Text.notMem_toString rfl _, hg.protocol⟩
  have hjoined := joined_inj (by decide) (hfields g hg) (hfields g' hg') (List.cons_ne_nil _ _)
    (List.cons_ne_nil _ _) h
  simp only [List.cons.injEq, and_true] at hjoined
  obtain ⟨hsource, hdestination, hport, hprotocol⟩ := hjoined
  exact ⟨hg.source.same hg'.source hsource, hg.destination.same hg'.destination hdestination,
    Text.toString_inj (congrArg String.toList hport), hprotocol⟩

end Connections

end Kubeast.Netflows
