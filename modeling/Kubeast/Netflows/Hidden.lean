import Kubeast.Netflows.Keep
import Mathlib.Data.List.Forall2

/-! What a reader of some namespaces is told does not depend on the objects of the others. -/
namespace Kubeast.Netflows

variable {L : Type*} {scope : List String} {e e' : End} {f f' : Flow L} {r : Request} {g : Group}
  {flows flows' : List (Flow L)}

/-- The namespace of an end: its own, or where it has none the one its Service is of. -/
def End.owner (e : End) : Option String :=
  if e.namespace_ ≠ "" then some e.namespace_ else serviceNamespace e.service

def Outside (scope : List String) (owner : Option String) : Prop := ∃ ns, owner = some ns ∧ ns ∉ scope

/-- Two ends that differ in what belongs to namespaces outside the scope at most. -/
structure End.Alike (scope : List String) (e e' : End) : Prop where
  namespace_ : e.namespace_ = e'.namespace_
  ip : e.ip = e'.ip
  port : e.port = e'.port
  serviceAddress : e.serviceAddress = e'.serviceAddress
  hasService : e.service = "" ↔ e'.service = ""
  serviceNs : serviceNamespace e.service = serviceNamespace e'.service
  own : ¬Outside scope e.owner → e.pod = e'.pod ∧ e.workload = e'.workload ∧ e.identity = e'.identity
  named : ¬Outside scope e.owner → ¬Outside scope (serviceNamespace e.service) →
    e.service = e'.service ∧ e.names = e'.names

/-- Two flows that differ in what belongs to namespaces outside the scope and in the node at most. -/
structure Flow.Alike (scope : List String) (f f' : Flow L) : Prop where
  time : f.time = f'.time
  verdict : f.verdict = f'.verdict
  dropReason : f.dropReason = f'.dropReason
  direction : f.direction = f'.direction
  isReply : f.isReply = f'.isReply
  protocol : f.protocol = f'.protocol
  tcpFlags : f.tcpFlags = f'.tcpFlags
  l7 : f.l7 = f'.l7
  count : f.count = f'.count
  replyCount : f.replyCount = f'.replyCount
  source : f.source.Alike scope f'.source
  destination : f.destination.Alike scope f'.destination
  policies : (f.policies.getD .empty).visible scope = (f'.policies.getD .empty).visible scope

section Ends

theorem outside_iff {owner : Option String} :
    (owner.any fun ns => !inScope scope ns) = true ↔ Outside scope owner := by
  cases owner <;> simp [Outside, inScope]

theorem serviceNamespace_empty : serviceNamespace "" = none := by decide

/-- Ends that are shown as they are. -/
theorem End.Alike.eq (h : e.Alike scope e') (howner : ¬Outside scope e.owner)
    (hservice : ¬Outside scope (serviceNamespace e.service)) : e = e' := by
  obtain ⟨hpod, hworkload, hidentity⟩ := h.own howner
  obtain ⟨hservice, hnames⟩ := h.named howner hservice
  exact End.ext h.namespace_ hpod hworkload h.ip h.port hnames hservice hidentity h.serviceAddress

/-- How an end is hidden, by where its namespace and its Service's are. -/
theorem redact_cases (scope : List String) (e : End) :
    (¬Outside scope e.owner ∧ ¬Outside scope (serviceNamespace e.service) ∧ (e.redact scope).1 = e) ∨
    (e.namespace_ ≠ "" ∧ ¬Outside scope e.owner ∧ Outside scope (serviceNamespace e.service) ∧
      (e.redact scope).1 = { e with service := "", names := [] }) ∨
    ((e.namespace_ ≠ "" ∧ Outside scope e.owner ∨
        e.namespace_ = "" ∧ e.service ≠ "" ∧ ∀ ns, serviceNamespace e.service = some ns → ns ∉ scope) ∧
      (e.redact scope).1 =
        { e with pod := "", workload := none, service := "", identity := 0, names := [] }) := by
  by_cases hns : e.namespace_ = ""
  · have howner : e.owner = serviceNamespace e.service := by simp [End.owner, hns]
    by_cases hservice : e.service = ""
    · left
      simp [howner, Outside, End.redact, hns, hservice, serviceNamespace_empty]
    · by_cases hin : ∃ ns, serviceNamespace e.service = some ns ∧ ns ∈ scope
      · left
        obtain ⟨ns, hsome, hmem⟩ := hin
        simp [howner, hsome, Outside, hmem, End.redact, hns, hservice, inScope]
      · right; right
        refine ⟨Or.inr ⟨hns, hservice, fun ns hsome hmem => hin ⟨ns, hsome, hmem⟩⟩, ?_⟩
        cases hsome : serviceNamespace e.service with
        | none => simp [End.redact, hns, hservice, hsome]
        | some ns =>
          have hmem : ns ∉ scope := fun hmem => hin ⟨ns, hsome, hmem⟩
          simp [End.redact, hns, hservice, hsome, inScope, hmem]
  · have howner : e.owner = some e.namespace_ := by simp [End.owner, hns]
    by_cases hin : e.namespace_ ∈ scope
    · by_cases hservice : Outside scope (serviceNamespace e.service)
      · right; left
        refine ⟨hns, by simp [howner, Outside, hin], hservice, ?_⟩
        have hany := outside_iff.mpr hservice
        simp [End.redact, hns, inScope, hin] at hany ⊢
        simp [hany]
      · left
        refine ⟨by simp [howner, Outside, hin], hservice, ?_⟩
        have hany := mt outside_iff.mp hservice
        simp only [End.redact, inScope, ne_eq, hns, not_false_eq_true, true_and, List.contains_eq_mem,
          hin, decide_true, if_true] at hany ⊢
        rw [if_neg hany]
    · right; right
      refine ⟨Or.inl ⟨hns, by simp [howner, Outside, hin]⟩, ?_⟩
      simp [End.redact, hns, inScope, hin]

/-- What is shown of two ends that differ outside the scope is the same. -/
theorem End.Alike.redact (h : e.Alike scope e') : (e.redact scope).1 = (e'.redact scope).1 := by
  have howner : e.owner = e'.owner := by
    unfold End.owner
    rw [h.namespace_, h.serviceNs]
  by_cases hopen : ¬Outside scope e.owner ∧ ¬Outside scope (serviceNamespace e.service)
  · rw [h.eq hopen.1 hopen.2]
  rcases redact_cases scope e with ⟨hin, hservice, -⟩ | ⟨hns, hin, hservice, hshown⟩ | ⟨hout, hshown⟩
  · exact absurd ⟨hin, hservice⟩ hopen
  · rcases redact_cases scope e' with ⟨-, hservice', -⟩ | ⟨-, -, -, hshown'⟩ | ⟨hout, -⟩
    · exact absurd (h.serviceNs ▸ hservice) hservice'
    · obtain ⟨hpod, hworkload, hidentity⟩ := h.own hin
      rw [hshown, hshown']
      exact End.ext h.namespace_ hpod hworkload h.ip h.port rfl rfl hidentity h.serviceAddress
    · rcases hout with ⟨-, hout⟩ | ⟨hnone, -⟩
      · exact absurd (howner ▸ hout) hin
      · exact absurd (h.namespace_.trans hnone) hns
  · rcases redact_cases scope e' with ⟨hin', hservice', -⟩ | ⟨hns', hin', -, -⟩ | ⟨-, hshown'⟩
    · exact absurd ⟨howner ▸ hin', h.serviceNs ▸ hservice'⟩ hopen
    · rcases hout with ⟨-, hout⟩ | ⟨hnone, -⟩
      · exact absurd (howner ▸ hout) hin'
      · exact absurd (h.namespace_.symm.trans hnone) hns'
    · rw [hshown, hshown']
      exact End.ext h.namespace_ rfl rfl h.ip h.port rfl rfl rfl h.serviceAddress

end Ends

section Answers
theorem redactPolicies_eq (scope : List String) (p : Option Policies) : (redactPolicies scope p).1 =
    if (p.getD .empty).visible scope = .empty then none else some ((p.getD .empty).visible scope) := by
  cases p <;> rfl

/-- What is shown of two such flows is the same flow. -/
theorem Flow.Alike.redact (h : f.Alike scope f') :
    (f.redact (some scope)).1 = (f'.redact (some scope)).1 := by
  have hsource := h.source.redact
  have hdestination := h.destination.redact
  have hpolicies : (redactPolicies scope f.policies).1 = (redactPolicies scope f'.policies).1 := by
    rw [redactPolicies_eq, redactPolicies_eq, h.policies]
  obtain ⟨htime, hverdict, hreason, hdirection, hreply, hprotocol, hflags, hl7, hcount, hreplies, -⟩ := h
  cases f
  cases f'
  simp only [Flow.redact] at *
  subst htime hverdict hreason hdirection hreply hprotocol hflags hl7 hcount hreplies
  rw [hsource, hdestination, hpolicies]

/-- A side the request asks for is in its namespaces, so in the scope. -/
theorem End.Alike.side (h : e.Alike scope e') (hheld : ∀ ns ∈ r.namespaces, ns ∈ scope) :
    r.side e = r.side e' := by
  unfold Request.side
  rw [h.namespace_]
  split
  · rfl
  split
  · rfl
  next hns =>
    have hns : e.namespace_ = r.ns := h.namespace_.trans (not_not.mp hns)
    have hin : ¬Outside scope e.owner := by
      have hmem : e.namespace_ ∈ scope := hns ▸ hheld r.ns List.mem_cons_self
      simp [End.owner, hns ▸ r.required, Outside, hmem]
    obtain ⟨hpod, hworkload, -⟩ := h.own hin
    rw [hpod, hworkload]

theorem Flow.Alike.matchesFlow (h : f.Alike scope f') (hheld : ∀ ns ∈ r.namespaces, ns ∈ scope) :
    r.matchesFlow f = r.matchesFlow f' := by
  unfold Request.matchesFlow
  rw [h.source.side hheld, h.destination.side hheld, h.verdict]

theorem keepLoop_alike (cutoff : ℤ) (hscope : r.scope = some scope) (hheld : ∀ ns ∈ r.namespaces, ns ∈ scope)
    (h : List.Forall₂ (Flow.Alike scope) flows flows') (out : List (Flow L))
    (redacted redacted' truncated : Bool) :
    (keepLoop r cutoff out redacted truncated flows).1 =
        (keepLoop r cutoff out redacted' truncated flows').1 ∧
      (keepLoop r cutoff out redacted truncated flows).2.2 =
        (keepLoop r cutoff out redacted' truncated flows').2.2 := by
  induction h generalizing out redacted redacted' with
  | nil => exact ⟨rfl, rfl⟩
  | cons hf _ ih =>
    unfold keepLoop
    rw [hf.time, hf.matchesFlow hheld, hscope, hf.redact]
    split
    · exact ih ..
    split
    · exact ⟨rfl, rfl⟩
    · exact ih ..

end Answers

/-- An end of a namespace outside the scope is an address only, and no Service of one is named. -/
structure End.Shown (scope : List String) (e : End) : Prop where
  hidden : e.namespace_ ≠ "" → e.namespace_ ∉ scope →
    e.pod = "" ∧ e.workload = none ∧ e.service = "" ∧ e.identity = 0 ∧ e.names = []
  service : ¬Outside scope (serviceNamespace e.service)

def PoliciesShown (scope : List String) (p : Option Policies) : Prop :=
  ∀ ref ∈ (p.getD .empty).refs, ref.namespace_ = "" ∨ ref.namespace_ ∈ scope

structure Flow.Shown (scope : List String) (f : Flow L) : Prop where
  source : f.source.Shown scope
  destination : f.destination.Shown scope
  policies : PoliciesShown scope f.policies
  node : f.node = ""

structure Group.Shown (scope : List String) (g : Group) : Prop where
  source : g.source.Shown scope
  destination : g.destination.Shown scope
  policies : PoliciesShown scope g.policies

section Shown

theorem shown_redact (scope : List String) (e : End) : (e.redact scope).1.Shown scope := by
  have hempty : ¬Outside scope (serviceNamespace "") := by simp [serviceNamespace_empty, Outside]
  rcases redact_cases scope e with ⟨hin, hservice, heq⟩ | ⟨hns, hin, -, heq⟩ | ⟨-, heq⟩
  · refine ⟨fun hns hout => ?_, by rw [heq]; exact hservice⟩
    rw [heq] at hns hout
    exact absurd ⟨e.namespace_, by simp [End.owner, hns], hout⟩ hin
  · refine ⟨fun _ hout => ?_, by rw [heq]; exact hempty⟩
    rw [heq] at hout
    exact absurd ⟨e.namespace_, by simp [End.owner, hns], hout⟩ hin
  · exact ⟨fun _ _ => by simp [heq], by rw [heq]; exact hempty⟩

theorem End.Shown.clear (h : e.Shown scope) (port : ℕ) :
    ({ e with port := port, names := [] } : End).Shown scope where
  hidden hns hout := by
    obtain ⟨hpod, hworkload, hservice, hidentity, -⟩ := h.hidden hns hout
    exact ⟨hpod, hworkload, hservice, hidentity, rfl⟩
  service := h.service

theorem mem_refs {p : Policies} {ref : PolicyRef} : ref ∈ p.refs ↔ ref ∈ p.egressAllowedBy ∨
    ref ∈ p.ingressAllowedBy ∨ ref ∈ p.egressDeniedBy ∨ ref ∈ p.ingressDeniedBy := by
  simp [Policies.refs]

theorem visible_shown (scope : List String) (p : Policies) :
    ∀ ref ∈ (p.visible scope).refs, ref.namespace_ = "" ∨ ref.namespace_ ∈ scope := by
  have hlist (refs : List PolicyRef) (ref : PolicyRef) (h : ref ∈ refs.filter (PolicyRef.visible scope)) :
      ref.namespace_ = "" ∨ ref.namespace_ ∈ scope := by
    simpa [PolicyRef.visible, inScope] using (List.mem_filter.mp h).2
  intro ref h
  rcases mem_refs.mp h with h | h | h | h <;> exact hlist _ ref h

theorem policiesShown_redact (scope : List String) (p : Option Policies) :
    PoliciesShown scope (redactPolicies scope p).1 := by
  rw [redactPolicies_eq]
  split
  · intro ref h
    cases h
  · exact visible_shown scope _

theorem Flow.shown_redact (scope : List String) (f : Flow L) : (f.redact (some scope)).1.Shown scope :=
  ⟨Netflows.shown_redact scope _, Netflows.shown_redact scope _, policiesShown_redact scope _, rfl⟩

theorem PoliciesShown.merge {p q : Option Policies} (hp : PoliciesShown scope p)
    (hq : PoliciesShown scope q) : PoliciesShown scope (mergePolicies p q) := by
  cases q with
  | none => exact hp
  | some q =>
    intro ref h
    have hsplit : ref ∈ (p.getD .empty).refs ∨ ref ∈ q.refs := by
      rw [mem_refs, mem_refs]
      rcases mem_refs.mp h with h | h | h | h <;> rcases mem_addRefs.mp h with h | h <;> simp [h]
    exact hsplit.elim (hp ref) (hq ref)

theorem Flow.Shown.ends (h : f.Shown scope) :
    f.ends.1.Shown scope ∧ f.ends.2.Shown scope := by
  unfold Flow.ends
  split
  · exact ⟨h.destination.clear 0, h.source.clear _⟩
  · exact ⟨h.source.clear 0, h.destination.clear _⟩

theorem Flow.Shown.newGroup (h : f.Shown scope) : f.newGroup.Shown scope :=
  ⟨h.ends.1, h.ends.2, fun _ hmem => by cases hmem⟩

theorem Group.Shown.add (hg : g.Shown scope) (hf : f.Shown scope) : (g.add f).Shown scope := by
  have hends : (g.add f).source = g.source ∧ (g.add f).destination = g.destination := by
    rw [Group.add_eq]
    exact ⟨rfl, rfl⟩
  have hpolicies : (g.add f).policies = g.policies ∨
      (g.add f).policies = mergePolicies g.policies f.policies := by
    rw [Group.add_eq]
    exact ite_eq_or_eq _ _ _
  refine ⟨hends.1 ▸ hg.source, hends.2 ▸ hg.destination, ?_⟩
  rcases hpolicies with h | h <;> rw [h]
  · exact hg.policies
  · exact hg.policies.merge hf.policies

theorem shown_addFlow {groups : List (String × Group)} (hgroups : ∀ g ∈ groups, g.2.Shown scope)
    (hf : f.Shown scope) : ∀ g ∈ addFlow groups f, g.2.Shown scope := by
  intro g hmem
  unfold addFlow at hmem
  split at hmem
  · obtain ⟨g, hold, rfl⟩ := List.mem_map.mp hmem
    split
    · exact (hgroups g hold).add hf
    · exact hgroups g hold
  · rcases List.mem_append.mp hmem with hold | hnew
    · exact hgroups g hold
    · obtain rfl := List.mem_singleton.mp hnew
      exact hf.newGroup.add hf

theorem shown_group (h : ∀ f ∈ flows, f.Shown scope) : ∀ g ∈ group flows, g.Shown scope := by
  have hfold : ∀ (groups : List (String × Group)), (∀ g ∈ groups, g.2.Shown scope) →
      ∀ g ∈ flows.foldl addFlow groups, g.2.Shown scope := by
    induction flows with
    | nil => exact fun _ hgroups => hgroups
    | cons f flows ih =>
      obtain ⟨hf, hflows⟩ := List.forall_mem_cons.mp h
      exact fun groups hgroups => ih hflows _ (shown_addFlow hgroups hf)
  intro g hg
  obtain ⟨g, hmem, rfl⟩ := List.mem_map.mp (List.mem_of_mem_filter hg)
  exact hfold [] (by simp) g hmem

theorem shown_keepLoop {cutoff : ℤ} {out : List (Flow L)} {redacted truncated : Bool}
    (hscope : r.scope = some scope) (hout : ∀ f ∈ out, f.Shown scope) :
    ∀ f ∈ (keepLoop r cutoff out redacted truncated flows).1, f.Shown scope := by
  induction flows generalizing out redacted with
  | nil => exact hout
  | cons f flows ih =>
    unfold keepLoop
    split
    · exact ih hout
    split
    · exact hout
    · apply ih
      intro g hg
      rcases List.mem_append.mp hg with hg | hg
      · exact hout g hg
      · rw [List.mem_singleton.mp hg, hscope]
        exact f.shown_redact scope

end Shown

/-- A reader of some namespaces gets the same flows and groups whatever the objects of the others
are, and none of them names one. -/
theorem keep_hides_other_namespaces {now : ℤ} {truncated : Bool} (hscope : r.scope = some scope)
    (hheld : ∀ ns ∈ r.namespaces, ns ∈ scope) (h : List.Forall₂ (Flow.Alike scope) flows flows') :
    (keep r flows now truncated).flows = (keep r flows' now truncated).flows ∧
      (keep r flows now truncated).groups = (keep r flows' now truncated).groups ∧
      (keep r flows now truncated).truncated = (keep r flows' now truncated).truncated ∧
      (∀ f ∈ (keep r flows now truncated).flows, f.Shown scope) ∧
      ∀ g ∈ (keep r flows now truncated).groups, g.Shown scope := by
  obtain ⟨hflows, htruncated⟩ := keepLoop_alike (now - r.since) hscope hheld h [] false false
    truncated
  have hshown : ∀ f ∈ (keepLoop r (now - r.since) [] false truncated flows).1, f.Shown scope :=
    shown_keepLoop hscope (by simp)
  exact ⟨hflows, congrArg group hflows, htruncated, hshown, shown_group hshown⟩

def shopRequest : Request := ⟨"shop", by decide, "", "", [], [], 60, 10, some ["shop"], ""⟩

/-- A flow from a pod of the reader's to a pod of another namespace, under a policy of that one. -/
def opsFlow (pod policy node : String) : Flow Unit where
  time := 100
  verdict := "FORWARDED"
  dropReason := ""
  direction := "egress"
  isReply := false
  protocol := "TCP"
  source := ⟨"shop", "api-1", none, "10.0.0.1", 40000, [], "", 7, false⟩
  destination := ⟨"ops", pod, none, "10.0.0.9", 5432, [pod ++ ".ops"], "ops/" ++ pod, 9, false⟩
  tcpFlags := ""
  policies := some ⟨[], [⟨"NetworkPolicy", "ops", policy⟩], [], []⟩
  l7 := none
  node := node
  count := 0
  replyCount := 0

theorem keep_hides_other_namespaces_ops :
    (keep shopRequest [opsFlow "db-1" "db" "node-1"] 110 false).flows =
      (keep shopRequest [opsFlow "cache-1" "cache" "node-2"] 110 false).flows := by
  have hopsName : serviceNamespace ("ops/" ++ "db-1") = serviceNamespace ("ops/" ++ "cache-1") := by decide
  have hops : Outside ["shop"] (opsFlow "db-1" "db" "node-1").destination.owner :=
    ⟨"ops", by decide, by decide⟩
  refine (keep_hides_other_namespaces rfl (by decide) (.cons ?_ .nil)).1
  refine ⟨rfl, rfl, rfl, rfl, rfl, rfl, rfl, rfl, rfl, rfl, ?_, ?_, by decide⟩
  · exact ⟨rfl, rfl, rfl, rfl, Iff.rfl, rfl, fun _ => ⟨rfl, rfl, rfl⟩, fun _ _ => ⟨rfl, rfl⟩⟩
  · exact ⟨rfl, rfl, rfl, rfl, by decide, hopsName, fun h => absurd hops h, fun h => absurd hops h⟩

end Kubeast.Netflows
