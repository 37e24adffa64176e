import Kubeast.Netpol.Grouped
import Kubeast.Netpol.Sound

/-! A check against a Service speaks for its pods: the verdict on a group is that on each of its
pods, as far as it is definite. -/
namespace Kubeast.Netpol
open Netip Text ThreeValued

/-- An endpoint that stands for another one, and may have more addresses. -/
structure Merged (g p : Endpoint) : Prop where
  ns : p.ns = g.ns
  namespaceLabels : p.namespaceLabels = g.namespaceLabels
  labels : p.labels = g.labels
  hostNetwork : p.hostNetwork = g.hostNetwork
  external : p.external = false ∧ g.external = false
  pod : g.pod = ""
  ips : p.ips ⊆ g.ips
  ports : ∀ name protocol, namedPort p.ports name protocol = namedPort g.ports name protocol

section Sharper
variable {K : Apimachinery} {g p : Endpoint} {policyNS protocol : String} {port : ℤ}
  {policies : List NetworkPolicy}

theorem inBlock_mono {b : IPBlock} {ips ips' : List Addr} (h : ips ⊆ ips') (hin : inBlock b ips = true) :
    inBlock b ips' = true := by
  unfold inBlock at hin ⊢
  cases hcidr : parsePrefix b.cidr with
  | none =>
    rw [hcidr] at hin
    cases hin
  | some cidr =>
    rw [hcidr] at hin
    obtain ⟨ip, hip, hcovers⟩ := List.any_eq_true.mp hin
    exact List.any_eq_true.mpr ⟨ip, h hip, hcovers⟩

theorem matchPeer_sharper (h : Merged g p) (peer : Peer) :
    Sharper (matchPeer K policyNS peer p).answer (matchPeer K policyNS peer g).answer := by
  have hnamespace : peerNamespace K policyNS peer p = peerNamespace K policyNS peer g := by
    unfold peerNamespace matchNamespace
    rw [h.ns, h.namespaceLabels]
  unfold matchPeer
  rw [hnamespace, h.labels, h.external.1, h.external.2]
  cases peer.ipBlock with
  | none => exact Sharper.refl _
  | some b =>
    dsimp only
    by_cases hno : peer.podSelector.isSome = true ∨ peer.namespaceSelector.isSome = true ∨
        inBlock b g.ips = false
    · have hno' : peer.podSelector.isSome = true ∨ peer.namespaceSelector.isSome = true ∨
          inBlock b p.ips = false := by
        refine hno.imp_right (Or.imp_right fun hout => ?_)
        rw [← Bool.not_eq_true] at hout ⊢
        exact fun hin => hout (inBlock_mono h.ips hin)
      rw [if_pos hno, if_pos hno']
      exact Sharper.refl _
    · rw [if_neg hno]
      exact sharper_unknown _

theorem matchPeers_sharper (h : Merged g p) (ps : List Peer) :
    Sharper (matchPeers K policyNS ps p).answer (matchPeers K policyNS ps g).answer := by
  unfold matchPeers
  split
  · exact Sharper.refl _
  · rw [matchPeersFrom_answer (by decide), matchPeersFrom_answer (by decide)]
    exact (Sharper.refl _).or (sharper_anyOf fun peer _ => matchPeer_sharper h peer)

theorem matchPorts_merged (h : Merged g p) (ps : List Port) :
    matchPorts ps p protocol port = matchPorts ps g protocol port := by
  have hfrom : ∀ reason, matchPortsFrom p protocol port reason ps = matchPortsFrom g protocol port reason ps := by
    induction ps with
    | nil => exact fun _ => rfl
    | cons q ps ih =>
      intro reason
      unfold matchPortsFrom
      rw [h.external.1, h.external.2]
      simp only [ih, h.ports]
  rw [matchPorts, matchPorts, hfrom]

/-- A direction whose peer is known better, at a pod that the policies see alike. -/
theorem side_sharper {self self' peer peer' dst dst' : Endpoint} {dir : PolicyType}
    (hself : ∀ np, selected K self' dir np = selected K self dir np)
    (hpeer : ∀ ns ps, Sharper (matchPeers K ns ps peer').answer (matchPeers K ns ps peer).answer)
    (hports : ∀ ps, matchPorts ps dst' protocol port = matchPorts ps dst protocol port) :
    Sharper (side K self' peer' dst' dir protocol port policies).result.answer
      (side K self peer dst dir protocol port policies).result.answer := by
  have hpolicy : ∀ np, Sharper (policyAnswer K self' peer' dst' dir protocol port np)
      (policyAnswer K self peer dst dir protocol port np) := by
    intro np
    rw [policyAnswer, policyAnswer, hself]
    split
    · apply sharper_anyOf
      intro r _
      rw [ruleAnswer, ruleAnswer, hports]
      split
      · exact hpeer np.ns r.peers
      · exact Sharper.refl _
    · exact Sharper.refl _
  have hselected : selected K self' dir = selected K self dir := funext hself
  rw [side_answer, side_answer, hselected]
  split
  · exact sharper_anyOf fun np _ => hpolicy np
  · exact Sharper.refl _

theorem selected_merged (h : Merged g p) (dir : PolicyType) (np : NetworkPolicy) :
    selected K p dir np = selected K g dir np := by
  rw [selected, selected, h.ns, h.labels]

/-- A definite verdict on the endpoint that stands for a pod is the verdict on the pod. -/
theorem check_sharper (h : Merged g p) (src : Endpoint) (hother : samePod src p = false) :
    Sharper (check K policies src p protocol port).result.answer
      (check K policies src g protocol port).result.answer := by
  have hgroup : samePod src g = false := by
    rw [samePod, h.pod]
    cases hpod : src.pod == "" <;> simp [hpod, bne]
  unfold check
  simp only [hother, hgroup, Bool.false_eq_true, if_false, h.external.1, h.external.2, h.hostNetwork]
  split
  · exact Sharper.refl _
  · rw [combine, combine, combineFrom_answer _ (by decide), combineFrom_answer _ (by decide)]
    simp only [List.foldr_cons, List.foldr_nil, and_yes, Option.elim_some]
    have hegress (protocol : String) : Sharper
        (side K src p p .egress protocol port (byName policies)).result.answer
        (side K src g g .egress protocol port (byName policies)).result.answer :=
      side_sharper (fun _ => rfl) (fun ns ps => matchPeers_sharper h ps) fun ps => matchPorts_merged h ps
    have hingress (protocol : String) : Sharper
        (side K p src p .ingress protocol port (byName policies)).result.answer
        (side K g src g .ingress protocol port (byName policies)).result.answer :=
      side_sharper (selected_merged h .ingress) (fun ns ps => Sharper.refl _) fun ps => matchPorts_merged h ps
    apply (Sharper.refl _).and
    apply Sharper.and
    · split
      · exact Sharper.refl _
      · exact hegress _
    · exact hingress _

end Sharper

section Answered
variable {K : Apimachinery} {svc : Service} {nsLabels : Option Labels} {listed : Table Pod.name}
  {pods : List Pod} {p q : Pod} {g : Group} {policies : List NetworkPolicy} {src : Endpoint}
  {portSpec protocol : String} {k : String}

/-- Pods with one key have the same first port for every name and protocol. -/
def PortsAgree (pods : List Pod) : Prop :=
  ∀ p ∈ pods, ∀ q ∈ pods, podGroupKey p = podGroupKey q →
    ∀ name protocol, namedPort (podPorts p) name protocol = namedPort (podPorts q) name protocol

theorem nodup_readPods (listed : Table Pod.name) : ((readPods listed).1.map Pod.name).Nodup := by
  have hall : ((runningPods listed).map Pod.name).Nodup := by
    have hperm : (runningPods listed).Perm (listed.select Pod.running) := List.perm_insertionSort _ _
    rw [(hperm.map Pod.name).nodup_iff]
    exact listed.nodup.sublist (List.filter_sublist.map _)
  rw [readPods]
  split
  · exact hall.sublist ((List.take_sublist _ _).map _)
  · exact hall

/-- A group's endpoint stands for each of its pods, if their named ports agree. -/
theorem merged_of_group {ns : String} (h : GroupOf ns nsLabels (members k pods) g)
    (hports : PortsAgree pods) (hp : p ∈ members k pods) :
    Merged g.ep (netpolPodEndpoint ns nsLabels p) := by
  obtain ⟨q, hq, hep⟩ := h.rep
  obtain ⟨hp', hkp⟩ := List.mem_filter.mp hp
  obtain ⟨hq', hkq⟩ := List.mem_filter.mp hq
  have hkey : podGroupKey p = podGroupKey q := (of_decide_eq_true hkp).trans (of_decide_eq_true hkq).symm
  rw [hep]
  exact
    { ns := rfl
      namespaceLabels := rfl
      labels := funext (labels_of_key hkey)
      hostNetwork := (same_of_key hkey).2
      external := ⟨rfl, rfl⟩
      pod := rfl
      ips := fun ip hip => List.mem_flatMap.mpr ⟨p, hp, hip⟩
      ports := hports p hp' q hq' hkey }

/-- The Service ports that the caller asks about. -/
def Service.asked (svc : Service) (portSpec protocol : String) : List ServicePort :=
  svc.ports.filter (ServicePort.asked (trimSpace portSpec) protocol)

def Judged.note : Judged → String
  | .missing note => note
  | .verdict _ => ""

/-- The port that was checked. -/
def NetpolCheck.target (c : NetpolCheck) : Target := ⟨c.port, c.protocol, c.servicePort, c.judged.note⟩

theorem target_netpolCheck (g : Group) (t : Target) : (netpolCheck K policies src "service" g t).target = t := by
  rw [NetpolCheck.target, netpolCheck]
  dsimp only
  split
  · rfl
  · next hmissing =>
    rw [not_not] at hmissing
    rw [Judged.note, ← hmissing]

theorem groupChecks_eq (g : Group) : groupChecks K policies src "service" (some svc) portSpec protocol g =
    if svc.asked portSpec protocol = [] then .error (.noServicePort svc.ns svc.name (trimSpace portSpec))
    else .ok ((svc.asked portSpec protocol).map fun sp =>
      netpolCheck K policies src "service" g (sp.target g.ep.ports)) := by
  rw [groupChecks, netpolTargets, ← Service.asked]
  by_cases hasked : svc.asked portSpec protocol = []
  · rw [if_pos hasked, hasked]
    rfl
  · rw [if_neg hasked, if_neg (by simpa using hasked)]
    show Except.ok (List.map _ (List.map _ _)) = _
    rw [List.map_map]
    rfl

theorem mapM_eq_ok {α β ε : Type} {f : α → Except ε β} {f' : α → β} {l : List α}
    (h : ∀ a ∈ l, f a = .ok (f' a)) : l.mapM f = .ok (l.map f') := by
  induction l with
  | nil => rfl
  | cons a l ih =>
    rw [List.forall_mem_cons] at h
    rw [List.mapM_cons, h.1, ih h.2]
    rfl

theorem resolveService_ok {dst : Resolved} (h : resolveService nsLabels svc listed = .ok dst) :
    dst.groups = groupsOf svc.ns nsLabels (readPods listed).1 ∧ dst.service = some svc := by
  rw [resolveService] at h
  split at h
  · cases h
  · dsimp only at h
    split at h
    · cases h
    · obtain rfl := Except.ok.inj h
      exact ⟨rfl, rfl⟩

/-- All checks: of each group on each port that is asked for. -/
def allChecks (K : Apimachinery) (policies : List NetworkPolicy) (src : Endpoint) (svc : Service)
    (portSpec protocol : String) (groups : List Group) : List NetpolCheck :=
  groups.flatMap fun g => (svc.asked portSpec protocol).map fun sp =>
    netpolCheck K policies src "service" g (sp.target g.ep.ports)

theorem mem_allChecks {groups : List Group} {c : NetpolCheck} :
    c ∈ allChecks K policies src svc portSpec protocol groups ↔ ∃ g ∈ groups, ∃ sp ∈ svc.asked portSpec protocol,
      netpolCheck K policies src "service" g (sp.target g.ep.ports) = c := by
  simp [allChecks]

variable {dst : Resolved} {truncated : Bool} {dnsLabels : Option Labels} {res : NetpolCheckResult}

theorem checkResolved_eq (hservice : dst.service = some svc) (hasked : svc.asked portSpec protocol ≠ []) :
    checkResolved K policies src "service" dst truncated dnsLabels portSpec protocol =
      answer K policies src "service" dst truncated dnsLabels
        (allChecks K policies src svc portSpec protocol dst.groups) := by
  have hgroup : ∀ g ∈ dst.groups, groupChecks K policies src "service" (some svc) portSpec protocol g =
      .ok ((svc.asked portSpec protocol).map fun sp =>
        netpolCheck K policies src "service" g (sp.target g.ep.ports)) := by
    intro g _
    rw [groupChecks_eq, if_neg hasked]
  rw [checkResolved, hservice, mapM_eq_ok hgroup]
  rfl

theorem checks_of_ok (hservice : dst.service = some svc)
    (h : checkResolved K policies src "service" dst truncated dnsLabels portSpec protocol = .ok res) :
    svc.asked portSpec protocol ≠ [] ∧ ∃ c rest,
      allChecks K policies src svc portSpec protocol dst.groups = c :: rest ∧ res.checks = c :: rest ∧
        res.result = if rest.any (fun c' => c'.judged.result ≠ c.judged.result) then "mixed"
          else c.judged.result.text := by
  by_cases hasked : svc.asked portSpec protocol = []
  · rw [checkResolved, hservice] at h
    cases hgroups : dst.groups with
    | nil =>
      rw [hgroups] at h
      cases h
    | cons g gs =>
      rw [hgroups, List.mapM_cons, groupChecks_eq, if_pos hasked] at h
      cases h
  · rw [checkResolved_eq hservice hasked] at h
    refine ⟨hasked, ?_⟩
    cases hchecks : allChecks K policies src svc portSpec protocol dst.groups with
    | nil =>
      rw [hchecks] at h
      cases h
    | cons c rest =>
      rw [hchecks] at h
      obtain rfl := Except.ok.inj h
      exact ⟨c, rest, rfl, rfl, rfl⟩

theorem Result.text_injective : Function.Injective Result.text := by
  intro r s h
  cases r <;> cases s <;> first | rfl | exact absurd h (by decide)

/-- A whole answer that is not mixed is that of every check. -/
theorem result_of_checks {c : NetpolCheck} {rest : List NetpolCheck} {r : Result}
    (h : (if rest.any (fun c' => c'.judged.result ≠ c.judged.result) then "mixed"
      else c.judged.result.text) = r.text) : ∀ c' ∈ c :: rest, c'.judged.result = r := by
  split at h
  · cases r <;> exact absurd h (by decide)
  · next hsame =>
    have hfirst := Result.text_injective h
    intro c' hc'
    rcases List.mem_cons.mp hc' with rfl | hc'
    · exact hfirst
    · rw [List.any_eq_true] at hsame
      by_contra hne
      exact hsame ⟨c', hc', by simpa [hfirst] using hne⟩

end Answered

/-- What an answer owes the pods it has read. -/
structure SpeaksFor (K : Apimachinery) (policies : List NetworkPolicy) (src : Endpoint) (svc : Service)
    (nsLabels : Option Labels) (pods : List Pod) (portSpec protocol : String) (res : NetpolCheckResult) :
    Prop where
  once : ∀ p ∈ pods, ∃! i : ℕ, ∃ g, (groupsOf svc.ns nsLabels pods)[i]? = some g ∧ p.name ∈ g.pods
  answered : ∀ g ∈ groupsOf svc.ns nsLabels pods, ∃ c ∈ res.checks, c.pods = g.pods
  resolves : ∀ c ∈ res.checks, ∃ sp ∈ svc.asked portSpec protocol, ∀ p ∈ pods, p.name ∈ c.pods →
    sp.target (podPorts p) = c.target
  verdicts : ∀ c ∈ res.checks, c.judged.result ≠ .unknown → ∀ p ∈ pods, p.name ∈ c.pods →
    samePod src (netpolPodEndpoint svc.ns nsLabels p) = false →
    (check K policies src (netpolPodEndpoint svc.ns nsLabels p) c.protocol c.port).result = c.judged.result
  whole : ∀ r, r ≠ .unknown → res.result = r.text → ∀ p ∈ pods, ∀ sp ∈ svc.asked portSpec protocol,
    (sp.target (podPorts p)).missing = "" ∧
      (samePod src (netpolPodEndpoint svc.ns nsLabels p) = false →
        (check K policies src (netpolPodEndpoint svc.ns nsLabels p) (sp.target (podPorts p)).protocol
          (sp.target (podPorts p)).port).result = r)

/-- The check speaks for the pods that a Service selects, whatever the Service, the policies, the
source and the ports. -/
def Speaks (K : Apimachinery) (listed : Table Pod.name) : Prop :=
  ∀ (svc : Service) (nsLabels dnsLabels : Option Labels) (policies : List NetworkPolicy) (src : Endpoint)
    (truncated : Bool) (portSpec protocol : String) (dst : Resolved) (res : NetpolCheckResult),
    resolveService nsLabels svc listed = .ok dst →
    checkResolved K policies src "service" dst truncated dnsLabels portSpec protocol = .ok res →
    SpeaksFor K policies src svc nsLabels (readPods listed).1 portSpec protocol res

section Main
variable {K : Apimachinery} {svc : Service} {nsLabels dnsLabels : Option Labels} {listed : Table Pod.name}
  {policies : List NetworkPolicy} {src : Endpoint} {portSpec protocol : String} {truncated : Bool}
  {dst : Resolved} {res : NetpolCheckResult} {pods : List Pod} {g : Group} {p : Pod} {k : String}

theorem target_congr {ports ports' : List ContainerPort} (sp : ServicePort)
    (h : ∀ name protocol, namedPort ports name protocol = namedPort ports' name protocol) :
    sp.target ports = sp.target ports' := by
  rw [ServicePort.target, ServicePort.target]
  split
  · rw [h]
  · rfl

theorem answer_injective : Function.Injective Result.answer := by
  intro r s h
  cases r <;> cases s <;> first | rfl | cases h

/-- What a check says of one of its pods. -/
theorem netpolCheck_pod (K : Apimachinery) (policies : List NetworkPolicy) (src : Endpoint)
    (hports : PortsAgree pods) (hg : GroupOf svc.ns nsLabels (members k pods) g)
    (hp : p ∈ members k pods) (sp : ServicePort) :
    sp.target (podPorts p) = sp.target g.ep.ports ∧
    ((netpolCheck K policies src "service" g (sp.target g.ep.ports)).judged.result ≠ .unknown →
      (sp.target g.ep.ports).missing = "" ∧
      (samePod src (netpolPodEndpoint svc.ns nsLabels p) = false →
        (check K policies src (netpolPodEndpoint svc.ns nsLabels p) (sp.target g.ep.ports).protocol
          (sp.target g.ep.ports).port).result =
            (netpolCheck K policies src "service" g (sp.target g.ep.ports)).judged.result)) := by
  have hmerged := merged_of_group hg hports hp
  refine ⟨target_congr sp hmerged.ports, fun hne => ?_⟩
  rw [netpolCheck] at hne ⊢
  dsimp only at hne ⊢
  by_cases hmissing : (sp.target g.ep.ports).missing = ""
  · rw [if_neg (not_not.mpr hmissing)] at hne ⊢
    refine ⟨hmissing, fun hother => answer_injective (check_sharper hmerged src hother fun hunknown => ?_)⟩
    exact hne (answer_injective hunknown)
  · rw [if_pos hmissing] at hne
    exact absurd rfl hne

theorem speaksFor_of_agree (hports : PortsAgree (readPods listed).1)
    (hresolve : resolveService nsLabels svc listed = .ok dst)
    (hres : checkResolved K policies src "service" dst truncated dnsLabels portSpec protocol = .ok res) :
    SpeaksFor K policies src svc nsLabels (readPods listed).1 portSpec protocol res := by
  obtain ⟨hgroups, hservice⟩ := resolveService_ok hresolve
  obtain ⟨hasked, c, rest, hall, hchecks, hresult⟩ := checks_of_ok hservice hres
  have hmem : ∀ c, c ∈ res.checks ↔ ∃ g ∈ groupsOf svc.ns nsLabels (readPods listed).1,
      ∃ sp ∈ svc.asked portSpec protocol, netpolCheck K policies src "service" g (sp.target g.ep.ports) = c := by
    intro c
    rw [hchecks, ← hall, hgroups]
    exact mem_allChecks
  have hnames := nodup_readPods listed
  -- a pod that a check names is one of the group's
  have hpods : ∀ {k g p}, GroupOf svc.ns nsLabels (members k (readPods listed).1) g →
      p ∈ (readPods listed).1 → p.name ∈ g.pods → p ∈ members k (readPods listed).1 := by
    intro k g p hgroup hp hname
    rw [hgroup.pods] at hname
    exact List.mem_filter.mpr ⟨hp, decide_eq_true (mem_members_of_name hnames hp hname)⟩
  refine ⟨fun p hp => existsUnique_group svc.ns nsLabels hnames hp, ?_, ?_, ?_, ?_⟩
  · intro g hg
    obtain ⟨sp, hsp⟩ := List.exists_mem_of_ne_nil _ hasked
    exact ⟨_, (hmem _).mpr ⟨g, hg, sp, hsp, rfl⟩, rfl⟩
  · intro c hc
    obtain ⟨g, hg, sp, hsp, rfl⟩ := (hmem c).mp hc
    obtain ⟨k, hgroup⟩ := exists_groupOf hg
    refine ⟨sp, hsp, fun p hp hname => ?_⟩
    rw [target_netpolCheck]
    exact (netpolCheck_pod K policies src hports hgroup (hpods hgroup hp hname) sp).1
  · intro c hc hne p hp hname hother
    obtain ⟨g, hg, sp, hsp, rfl⟩ := (hmem c).mp hc
    obtain ⟨k, hgroup⟩ := exists_groupOf hg
    exact ((netpolCheck_pod K policies src hports hgroup (hpods hgroup hp hname) sp).2 hne).2 hother
  · intro r hr hwhole p hp sp hsp
    rw [hresult] at hwhole
    obtain ⟨i, ⟨g, hi, hname⟩, -⟩ := existsUnique_group svc.ns nsLabels hnames hp
    have hg := List.mem_of_getElem? hi
    obtain ⟨k, hgroup⟩ := exists_groupOf hg
    have hc := (hmem _).mpr ⟨g, hg, sp, hsp, rfl⟩
    rw [hchecks] at hc
    have hsame := result_of_checks hwhole _ hc
    obtain ⟨htarget, hverdict⟩ := netpolCheck_pod K policies src hports hgroup (hpods hgroup hp hname) sp
    rw [htarget, ← hsame]
    exact hverdict (by rwa [hsame])

/-- A Service with one port of the name. -/
def namedService (name protocol : String) : Service :=
  ⟨"default", "web", ⟨[("app", "web")], by decide⟩, [⟨"", 80, protocol, .str name⟩]⟩

theorem namedPort_of_target {ports ports' : List ContainerPort} {name protocol : String} {n : ℤ}
    (hprotocol : protocol ≠ "")
    (h : ServicePort.target ports ⟨"", n, protocol, .str name⟩ =
      ServicePort.target ports' ⟨"", n, protocol, .str name⟩) :
    namedPort ports name protocol = namedPort ports' name protocol := by
  have hproto : orTCP protocol = protocol := if_neg hprotocol
  rw [ServicePort.target, ServicePort.target] at h
  dsimp only at h
  rw [hproto] at h
  cases hport : namedPort ports name protocol with
  | none =>
    cases hport' : namedPort ports' name protocol with
    | none => rfl
    | some n' =>
      rw [hport, hport'] at h
      have hmissing : noteTargetPortMissing = "" := congrArg Target.missing h
      exact absurd hmissing (by decide)
  | some m =>
    cases hport' : namedPort ports' name protocol with
    | none =>
      rw [hport, hport'] at h
      have hmissing : "" = noteTargetPortMissing := congrArg Target.missing h
      exact absurd hmissing (by decide)
    | some n' =>
      rw [hport, hport'] at h
      rw [show m = n' from congrArg Target.port h]

theorem namedPort_empty (ports : List ContainerPort) (name : String) : namedPort ports name "" = none := by
  rw [namedPort, List.find?_eq_none.mpr]
  · rfl
  · intro cp _
    by_cases hcp : cp.protocol = "" <;> simp [hcp]

/-- A check against a Service speaks for its pods exactly when pods that are decided as one declare
the same first port for every name and protocol. -/
theorem speaks_iff (K : Apimachinery) (listed : Table Pod.name) :
    Speaks K listed ↔ PortsAgree (readPods listed).1 := by
  constructor
  · intro hspeaks p hp q hq hkey name protocol
    by_cases hprotocol : protocol = ""
    · rw [hprotocol, namedPort_empty, namedPort_empty]
    · have hpods : (readPods listed).1 ≠ [] := List.ne_nil_of_mem hp
      obtain ⟨dst, hresolve⟩ : ∃ dst, resolveService none (namedService name protocol) listed = .ok dst := by
        rw [resolveService, if_neg (by simp [namedService])]
        dsimp only
        rw [if_neg hpods]
        exact ⟨_, rfl⟩
      obtain ⟨hgroups, hservice⟩ := resolveService_ok hresolve
      have hasked : (namedService name protocol).asked "" "" = [⟨"", 80, protocol, .str name⟩] := rfl
      have hasked' : (namedService name protocol).asked "" "" ≠ [] := by
        rw [hasked]
        exact List.cons_ne_nil _ _
      obtain ⟨i, ⟨g, hi, hname⟩, -⟩ := existsUnique_group "default" none (nodup_readPods listed) hp
      have hg := List.mem_of_getElem? hi
      let src := netpolPodEndpoint "default" none p
      have hmem : netpolCheck K [] src "service" g (ServicePort.target g.ep.ports ⟨"", 80, protocol, .str name⟩) ∈
          allChecks K [] src (namedService name protocol) "" "" dst.groups := by
        rw [mem_allChecks, hgroups, hasked]
        exact ⟨g, hg, _, List.mem_cons_self, rfl⟩
      obtain ⟨c, rest, hall⟩ := List.exists_cons_of_ne_nil (List.ne_nil_of_mem hmem)
      obtain ⟨res, hres⟩ : ∃ res, checkResolved K [] src "service" dst false none "" "" = .ok res := by
        rw [checkResolved_eq hservice hasked', hall]
        exact ⟨_, rfl⟩
      obtain ⟨-, c', rest', hall', hchecks, -⟩ := checks_of_ok hservice hres
      rw [hall', ← hchecks] at hmem
      have hspeaks := hspeaks (namedService name protocol) none none [] src false "" "" dst res hresolve hres
      obtain ⟨sp, hsp, htarget⟩ := hspeaks.resolves _ hmem
      rw [hasked, List.mem_singleton] at hsp
      subst hsp
      -- the other pod is in the group as well
      obtain ⟨k, hgroup⟩ := exists_groupOf hg
      have hnames : q.name ∈ g.pods := by
        have hkp := hname
        rw [hgroup.pods] at hkp ⊢
        have hk := mem_members_of_name (nodup_readPods listed) hp hkp
        exact List.mem_map_of_mem (List.mem_filter.mpr ⟨hq, decide_eq_true (hkey.symm.trans hk)⟩)
      exact namedPort_of_target hprotocol ((htarget p hp hname).trans (htarget q hq hnames).symm)
  · intro hports svc nsLabels dnsLabels policies src truncated portSpec protocol dst res hresolve hres
    exact speaksFor_of_agree hports hresolve hres

end Main

/-- A pod with two containers that name a port `http`. -/
def twoPorts (name : String) (first second : ℤ) : Pod where
  name := name
  labels := Table.empty
  phase := "Running"
  deleted := false
  initContainers := []
  containers := [⟨none, [⟨"http", first, "TCP"⟩]⟩, ⟨none, [⟨"http", second, "TCP"⟩]⟩]
  podIPs := []
  hostNetwork := false
  labels_valid := fun _ h => (List.not_mem_nil h).elim

def swapped : Table Pod.name := ⟨[twoPorts "web-0" 8080 9090, twoPorts "web-1" 9090 8080], by decide⟩

/-- One check for both pods, at the port of the first. -/
theorem swapped_checked :
    (((resolveService none (namedService "http" "TCP") swapped).bind fun dst =>
        checkResolved labelSelectors [] web "service" dst false none "" "").map fun res =>
      res.checks.map fun c => (c.pods, c.port, c.judged.result)) =
        .ok [(["web-0", "web-1"], 8080, .allowed)] ∧
      namedPort (podPorts (twoPorts "web-1" 9090 8080)) "http" "TCP" = some 9090 := by
  decide

end Kubeast.Netpol
