import Kubeast.Foundation.ThreeValued
import Kubeast.Netpol.Check

/-! What NetworkPolicies allow in a world where everything is known, and that the check answers
only what holds in every world that fits what it knows. -/
namespace Kubeast.Netpol
open Netip ThreeValued

/-- The facts that may be missing: the labels of every namespace, and whether the network plugin
lets an `ipBlock` select pods. -/
structure World where
  namespaceLabels : String → Labels
  named : ∀ ns, namespaceLabels ns namespaceNameLabel = some ns
  podBlocks : Bool

def World.labelsOf (w : World) (ep : Endpoint) : Labels :=
  match ep.namespaceLabels with
  | some labels => withName ep.ns labels
  | none => w.namespaceLabels ep.ns

section Rules
variable (K : Apimachinery) (w : World)

/-- A peer is a block of addresses, or pods by the namespace they are in and their labels. -/
def PeerSelects (policyNS : String) (p : Peer) (ep : Endpoint) : Prop :=
  match p.ipBlock with
  | some b => p.podSelector = none ∧ p.namespaceSelector = none ∧ inBlock b ep.ips = true ∧
      (ep.external = true ∨ w.podBlocks = true)
  | none => ep.external = false ∧ ¬ (p.podSelector = none ∧ p.namespaceSelector = none) ∧
      (match p.namespaceSelector with
        | none => ep.ns = policyNS
        | some sel => selects K sel (w.labelsOf ep) = true) ∧
      ∀ sel, p.podSelector = some sel → selects K sel ep.labels = true

/-- A port entry takes the connection: its protocol, and its number, range or name if any. -/
def PortTakes (dst : Endpoint) (protocol : String) (port : ℤ) (p : Port) : Prop :=
  p.protocol.getD "TCP" = protocol ∧
    match p.port with
    | none => True
    | some (.str name) => dst.external = false ∧ namedPort dst.ports name protocol = some port
    | some (.int lo) => lo ≤ port ∧ port ≤ p.endPort.getD lo

def RuleAllows (np : NetworkPolicy) (peer dst : Endpoint) (protocol : String) (port : ℤ)
    (r : Rule) : Prop :=
  (r.peers = [] ∨ ∃ p ∈ r.peers, PeerSelects K w np.ns p peer) ∧
    (r.ports = [] ∨ ∃ p ∈ r.ports, PortTakes dst protocol port p)

/-- A pod that no policy of the direction selects allows everything, any other what a rule of one
of them allows. -/
def DirectionAllows (policies : List NetworkPolicy) (self peer dst : Endpoint) (dir : PolicyType)
    (protocol : String) (port : ℤ) : Prop :=
  (∀ np ∈ policies, selected K self dir np = false) ∨
    ∃ np ∈ policies, selected K self dir np = true ∧
      ∃ r ∈ rules np dir, RuleAllows K w np peer dst protocol port r

def connectionProtocol (protocol : String) : String := if protocol = "" then "TCP" else protocol

/-- Both directions, as far as there is a pod at the end. -/
def PoliciesAllow (policies : List NetworkPolicy) (src dst : Endpoint) (protocol : String)
    (port : ℤ) : Prop :=
  (src.external = false →
      DirectionAllows K w policies src dst dst .egress (connectionProtocol protocol) port) ∧
    (dst.external = false →
      DirectionAllows K w policies dst src dst .ingress (connectionProtocol protocol) port)

/-- A pod always reaches itself. -/
def Connects (policies : List NetworkPolicy) (src dst : Endpoint) (protocol : String)
    (port : ℤ) : Prop :=
  samePod src dst = true ∨ PoliciesAllow K w policies src dst protocol port

end Rules

/-- Nothing is unknown of the endpoints that are pods: the labels of their namespaces are, and no
block covers an address of theirs. -/
def Known (policies : List NetworkPolicy) (ep : Endpoint) : Prop :=
  ep.external = false → ep.namespaceLabels ≠ none ∧
    ∀ np ∈ policies, ∀ r ∈ np.ingress ++ np.egress, ∀ p ∈ r.peers, ∀ b, p.ipBlock = some b →
      inBlock b ep.ips = false

def PeerMatch.answer : PeerMatch → Answer
  | .none => .no
  | .matched => .yes
  | .undecided _ => .unknown

def Result.answer : Result → Answer
  | .allowed => .yes
  | .denied => .no
  | .unknown => .unknown

variable {K : Apimachinery} {np : NetworkPolicy} {ep self peer dst : Endpoint} {dir : PolicyType}
  {protocol policyNS : String} {port : ℤ} {p : Peer} {ps : List Peer}

section Ports

theorem matchPortsFrom_eq_none {reason : Reason} {ps : List Port} :
    matchPortsFrom dst protocol port reason ps = none ↔
      ∃ p ∈ ps, PortTakes dst protocol port p := by
  induction ps generalizing reason with
  | nil => simp [matchPortsFrom]
  | cons p ps ih =>
    rw [List.exists_mem_cons_iff]
    unfold matchPortsFrom
    by_cases hproto : p.protocol.getD "TCP" = protocol
    · cases hport : p.port with
      | none => simp [PortTakes, hproto, hport]
      | some q =>
        cases q with
        | int lo =>
          by_cases hrange : port ≥ lo ∧ port ≤ p.endPort.getD lo
          · simp [PortTakes, hproto, hport, hrange]
          · simp [PortTakes, hproto, hport, hrange, ih]
        | str name =>
          cases hexternal : dst.external with
          | true => simp [PortTakes, hproto, hport, hexternal, ih]
          | false =>
            cases hnum : namedPort dst.ports name protocol with
            | none => simp [PortTakes, hproto, hport, hexternal, hnum, ih]
            | some num =>
              by_cases heq : num = port
              · simp [PortTakes, hproto, hport, hexternal, hnum, heq]
              · simp [PortTakes, hproto, hport, hexternal, hnum, heq, ih]
    · simp [PortTakes, hproto, ih]

theorem matchPorts_eq_none {ps : List Port} : matchPorts ps dst protocol port = none ↔
    ps = [] ∨ ∃ p ∈ ps, PortTakes dst protocol port p := by
  cases ps with
  | nil => simp [matchPorts]
  | cons p ps =>
    unfold matchPorts
    rw [if_neg (by simp), matchPortsFrom_eq_none]
    simp

end Ports

section Peers

theorem selects_iff (hK : K.Documented) {sel : LabelSelector} {s : K.Selector} {l : Labels}
    (hs : K.asSelector sel = some s) : selects K sel l = true ↔
      (K.requirements s).2 = true ∧ ∀ r ∈ (K.requirements s).1, K.requirementMatches r l = true := by
  unfold selects
  rw [hs]
  dsimp only
  cases hselectable : (K.requirements s).2 with
  | false => simp [hK.nothing s l hselectable]
  | true => simp [hK.all s l hselectable]

/-- A requirement on the name of the namespace does not need its other labels. -/
theorem requirementMatches_known (hK : K.Documented) (w : World) {r : K.Requirement}
    (hkey : K.key r = namespaceNameLabel) (ns : String) :
    K.requirementMatches r (w.namespaceLabels ns) = K.requirementMatches r (knownLabels ns) := by
  apply hK.ownKey
  rw [hkey, w.named]
  simp [knownLabels, withName]

theorem matchNamespace_decides (hK : K.Documented) (sel : LabelSelector) (ep : Endpoint) :
    Decides (matchNamespace K sel ep).answer
      fun w : World => selects K sel (w.labelsOf ep) = true := by
  unfold matchNamespace
  cases hs : K.asSelector sel with
  | none =>
    apply decides_no
    simp [selects, hs]
  | some s =>
    cases hlabels : ep.namespaceLabels with
    | some labels =>
      dsimp only
      split
      · next hmatches =>
        apply decides_yes
        simp [selects, hs, World.labelsOf, hlabels, hmatches]
      · next hmatches =>
        apply decides_no
        simp [selects, hs, World.labelsOf, hlabels, hmatches]
    | none =>
      have hlabelsOf (w : World) : w.labelsOf ep = w.namespaceLabels ep.ns := by
        simp [World.labelsOf, hlabels]
      dsimp only
      split_ifs with hnothing hname hother
      · apply decides_no
        intro w hselects
        rw [selects_iff hK hs, hnothing] at hselects
        exact absurd hselects.1 (by decide)
      · apply decides_no
        intro w hselects
        obtain ⟨r, hr, hfails⟩ := List.any_eq_true.mp hname
        rw [Bool.and_eq_true, beq_iff_eq, Bool.not_eq_true'] at hfails
        have hmatches := ((selects_iff hK hs).mp hselects).2 r hr
        rw [hlabelsOf, requirementMatches_known hK w hfails.1, hfails.2] at hmatches
        exact absurd hmatches (by decide)
      · exact decides_unknown
      · apply decides_yes
        intro w
        rw [selects_iff hK hs, hlabelsOf]
        refine ⟨by simpa using hnothing, fun r hr => ?_⟩
        have hkey : K.key r = namespaceNameLabel := by
          by_contra hne
          exact hother (List.any_eq_true.mpr ⟨r, hr, by simpa using hne⟩)
        rw [requirementMatches_known hK w hkey]
        by_contra hfails
        exact hname (List.any_eq_true.mpr ⟨r, hr, by simpa [hkey] using hfails⟩)

theorem peerNamespace_decides (hK : K.Documented) (policyNS : String) (p : Peer) (ep : Endpoint) :
    Decides (peerNamespace K policyNS p ep).answer fun w : World =>
      match p.namespaceSelector with
      | none => ep.ns = policyNS
      | some sel => selects K sel (w.labelsOf ep) = true := by
  unfold peerNamespace
  cases hsel : p.namespaceSelector with
  | some sel => exact matchNamespace_decides hK sel ep
  | none =>
    dsimp only
    split_ifs with hns
    · exact decides_yes fun _ => hns
    · exact decides_no fun _ => hns

theorem matchPeer_decides (hK : K.Documented) (policyNS : String) (p : Peer) (ep : Endpoint) :
    Decides (matchPeer K policyNS p ep).answer fun w : World => PeerSelects K w policyNS p ep := by
  unfold matchPeer PeerSelects
  cases hblock : p.ipBlock with
  | some b =>
    dsimp only
    split_ifs with hno hexternal
    · apply decides_no
      intro w hselects
      obtain ⟨hpod, hns, hin, -⟩ := hselects
      simp [hpod, hns, hin] at hno
    · apply decides_yes
      intro w
      simpa [hexternal, Option.isSome_iff_ne_none] using hno
    · exact decides_unknown
  | none =>
    dsimp only
    split_ifs with hno hns hpod
    · apply decides_no
      intro w hselects
      obtain ⟨hexternal, hsome, -⟩ := hselects
      rcases hno with hexternal' | hnone
      · rw [hexternal'] at hexternal
        cases hexternal
      · exact hsome (by simpa using hnone)
    · apply decides_no
      intro w hselects
      have hnamespace := peerNamespace_decides hK policyNS p ep
      rw [hns] at hnamespace
      exact hnamespace.no rfl w hselects.2.2.1
    · apply decides_no
      intro w hselects
      cases hsel : p.podSelector with
      | none => simp [hsel] at hpod
      | some sel => simp [hsel, hselects.2.2.2 sel hsel] at hpod
    · apply (peerNamespace_decides hK policyNS p ep).congr
      intro w
      have hpods : ∀ sel, p.podSelector = some sel → selects K sel ep.labels = true := by
        intro sel hsel
        simpa [hsel] using hpod
      rw [not_or, Bool.not_eq_true] at hno
      exact ⟨fun h => ⟨hno.1, by simpa using hno.2, h, hpods⟩, fun h => h.2.2.1⟩

theorem matchPeersFrom_answer {best : PeerMatch} (hbest : best ≠ .matched) :
    (matchPeersFrom K policyNS ep best ps).answer =
      best.answer.or (anyOf (ps.map fun p => (matchPeer K policyNS p ep).answer)) := by
  induction ps generalizing best with
  | nil => simp [matchPeersFrom]
  | cons p ps ih =>
    unfold matchPeersFrom
    rw [List.map_cons, anyOf_cons, ← Answer.or_assoc]
    cases hp : matchPeer K policyNS p ep with
    | none => simpa [PeerMatch.answer] using ih hbest
    | matched => cases best <;> simp_all [PeerMatch.answer, Answer.or]
    | undecided u => cases u <;> cases best <;> simp_all [PeerMatch.answer, Answer.or]

theorem matchPeers_decides (hK : K.Documented) (policyNS : String) (ps : List Peer)
    (ep : Endpoint) : Decides (matchPeers K policyNS ps ep).answer
      fun w : World => ps = [] ∨ ∃ p ∈ ps, PeerSelects K w policyNS p ep := by
  cases ps with
  | nil => exact decides_yes fun _ => Or.inl rfl
  | cons p ps =>
    have hany := decides_anyOf (l := p :: ps) fun p _ => matchPeer_decides hK policyNS p ep
    unfold matchPeers
    rw [if_neg (by simp), matchPeersFrom_answer (by decide)]
    exact hany.congr fun w => by simp

end Peers

section Sides

/-- The answer of one rule, and of one policy, to whether it allows the connection. -/
def ruleAnswer (K : Apimachinery) (np : NetworkPolicy) (peer dst : Endpoint) (protocol : String)
    (port : ℤ) (r : Rule) : Answer :=
  if matchPorts r.ports dst protocol port = none then (matchPeers K np.ns r.peers peer).answer
  else .no

def policyAnswer (K : Apimachinery) (self peer dst : Endpoint) (dir : PolicyType)
    (protocol : String) (port : ℤ) (np : NetworkPolicy) : Answer :=
  if selected K self dir np = true then
    anyOf ((rules np dir).map (ruleAnswer K np peer dst protocol port))
  else .no

/-- The answer that the rules gathered so far give. -/
def Tally.answer (t : Tally) : Answer :=
  if t.allowedBy.length > 0 then .yes else if t.undecided.length > 0 then .unknown else .no

variable (K np self peer dst dir protocol port)

theorem sideRule_answer (t : Tally) (r : Rule × ℕ) :
    (sideRule K peer dst protocol port np t r).answer =
        t.answer.or (ruleAnswer K np peer dst protocol port r.1) ∧
      (sideRule K peer dst protocol port np t r).isolated = t.isolated := by
  unfold sideRule ruleAnswer
  cases hpm : matchPeers K np.ns r.1.peers peer with
  | none => simp [PeerMatch.answer, Tally.answer]
  | matched =>
    cases hports : matchPorts r.1.ports dst protocol port with
    | some reason => simp [Tally.answer]
    | none =>
      simp only [Tally.answer, PeerMatch.answer]
      split_ifs <;> simp_all [Answer.or]
  | undecided u =>
    cases hports : matchPorts r.1.ports dst protocol port with
    | some reason => simp [Tally.answer]
    | none =>
      simp only [Tally.answer, PeerMatch.answer]
      split_ifs <;> simp_all [Answer.or]

theorem foldl_sideRule (rs : List (Rule × ℕ)) (t : Tally) :
    (rs.foldl (sideRule K peer dst protocol port np) t).answer =
        t.answer.or (anyOf (rs.map fun r => ruleAnswer K np peer dst protocol port r.1)) ∧
      (rs.foldl (sideRule K peer dst protocol port np) t).isolated = t.isolated := by
  induction rs generalizing t with
  | nil => simp
  | cons r rs ih =>
    obtain ⟨hanswer, hisolated⟩ := sideRule_answer K np peer dst protocol port t r
    obtain ⟨hrest, hrestIsolated⟩ := ih (sideRule K peer dst protocol port np t r)
    rw [List.foldl_cons, hrest, hrestIsolated, hanswer, hisolated, Answer.or_assoc]
    exact ⟨rfl, rfl⟩

theorem sidePolicy_answer (t : Tally) :
    (sidePolicy K self peer dst dir protocol port t np).answer =
        t.answer.or (policyAnswer K self peer dst dir protocol port np) ∧
      (sidePolicy K self peer dst dir protocol port t np).isolated =
        (t.isolated || selected K self dir np) := by
  unfold sidePolicy policyAnswer
  cases hselected : selected K self dir np with
  | false => simp
  | true =>
    rw [if_neg (by decide), if_pos rfl, Bool.or_true]
    cases hrules : rules np dir with
    | nil => simp [Tally.answer]
    | cons r rs =>
      dsimp only
      rw [if_neg (by simp), (foldl_sideRule K np peer dst protocol port _ _).1,
        (foldl_sideRule K np peer dst protocol port _ _).2]
      have hindexed : ((r :: rs).zipIdx.map fun x => ruleAnswer K np peer dst protocol port x.1) =
          (r :: rs).map (ruleAnswer K np peer dst protocol port) := by
        conv_rhs => rw [← List.zipIdx_map_fst 0 (r :: rs), List.map_map]
        rfl
      rw [hindexed]
      exact ⟨rfl, rfl⟩

theorem foldl_sidePolicy (nps : List NetworkPolicy) (t : Tally) :
    (nps.foldl (sidePolicy K self peer dst dir protocol port) t).answer =
        t.answer.or (anyOf (nps.map (policyAnswer K self peer dst dir protocol port))) ∧
      (nps.foldl (sidePolicy K self peer dst dir protocol port) t).isolated =
        (t.isolated || nps.any (selected K self dir)) := by
  induction nps generalizing t with
  | nil => simp
  | cons np nps ih =>
    obtain ⟨hanswer, hisolated⟩ := sidePolicy_answer K np self peer dst dir protocol port t
    obtain ⟨hrest, hrestIsolated⟩ := ih (sidePolicy K self peer dst dir protocol port t np)
    rw [List.foldl_cons, hrest, hrestIsolated, hanswer, hisolated, Answer.or_assoc, Bool.or_assoc]
    exact ⟨rfl, rfl⟩

/-- The result of a direction: everything where no policy selects the pod, else what the best
rule gives. -/
theorem side_answer (nps : List NetworkPolicy) :
    (side K self peer dst dir protocol port nps).result.answer =
      if nps.any (selected K self dir) = true then
        anyOf (nps.map (policyAnswer K self peer dst dir protocol port))
      else .yes := by
  obtain ⟨hanswer, hisolated⟩ :=
    foldl_sidePolicy K self peer dst dir protocol port nps ⟨false, [], [], [], []⟩
  have hstart : Tally.answer ⟨false, [], [], [], []⟩ = .no := rfl
  rw [hstart, no_or] at hanswer
  rw [Bool.false_or] at hisolated
  rw [← hanswer, ← hisolated]
  unfold side Tally.result Tally.answer
  dsimp only
  split_ifs <;> simp_all [Result.answer]

end Sides

section Decided

theorem ruleAnswer_decides (hK : K.Documented) (np : NetworkPolicy) (peer dst : Endpoint)
    (protocol : String) (port : ℤ) (r : Rule) :
    Decides (ruleAnswer K np peer dst protocol port r)
      fun w : World => RuleAllows K w np peer dst protocol port r := by
  unfold ruleAnswer RuleAllows
  split_ifs with hports
  · rw [matchPorts_eq_none] at hports
    exact (matchPeers_decides hK np.ns r.peers peer).congr fun w => (and_iff_left hports).symm
  · rw [matchPorts_eq_none] at hports
    exact decides_no fun w hallows => hports hallows.2

theorem policyAnswer_decides (hK : K.Documented) (self peer dst : Endpoint) (dir : PolicyType)
    (protocol : String) (port : ℤ) (np : NetworkPolicy) :
    Decides (policyAnswer K self peer dst dir protocol port np) fun w : World =>
      selected K self dir np = true ∧
        ∃ r ∈ rules np dir, RuleAllows K w np peer dst protocol port r := by
  unfold policyAnswer
  split_ifs with hselected
  · have hany := decides_anyOf (l := rules np dir) fun r _ =>
      ruleAnswer_decides hK np peer dst protocol port r
    exact hany.congr fun w => (and_iff_right hselected).symm
  · exact decides_no fun w hallows => hselected hallows.1

theorem side_decides (hK : K.Documented) (self peer dst : Endpoint) (dir : PolicyType)
    (protocol : String) (port : ℤ) (nps : List NetworkPolicy) :
    Decides (side K self peer dst dir protocol port nps).result.answer fun w : World =>
      DirectionAllows K w nps self peer dst dir protocol port := by
  rw [side_answer]
  split_ifs with hselected
  · have hany := decides_anyOf (l := nps) fun np _ =>
      policyAnswer_decides hK self peer dst dir protocol port np
    apply hany.congr
    intro w
    obtain ⟨np, hnp, htrue⟩ := List.any_eq_true.mp hselected
    have hnot : ¬ ∀ np ∈ nps, selected K self dir np = false := by
      intro hnone
      rw [hnone np hnp] at htrue
      cases htrue
    exact (or_iff_right hnot).symm
  · apply decides_yes
    intro w
    left
    simpa using hselected

end Decided

section Known
variable {policies : List NetworkPolicy}

theorem matchNamespace_known {sel : LabelSelector} (h : ep.namespaceLabels ≠ none) :
    (matchNamespace K sel ep).answer ≠ .unknown := by
  unfold matchNamespace
  cases hs : K.asSelector sel with
  | none => simp [PeerMatch.answer]
  | some s =>
    cases hlabels : ep.namespaceLabels with
    | none => exact absurd hlabels h
    | some labels =>
      dsimp only
      split_ifs <;> simp [PeerMatch.answer]

theorem matchPeer_known (h : ep.external = false → ep.namespaceLabels ≠ none ∧
      ∀ b, p.ipBlock = some b → inBlock b ep.ips = false) :
    (matchPeer K policyNS p ep).answer ≠ .unknown := by
  unfold matchPeer
  cases hblock : p.ipBlock with
  | some b =>
    dsimp only
    split_ifs with hno hexternal
    · simp [PeerMatch.answer]
    · simp [PeerMatch.answer]
    · rw [Bool.not_eq_true] at hexternal
      exact absurd (Or.inr (Or.inr ((h hexternal).2 b hblock))) hno
  | none =>
    dsimp only
    split_ifs with hno hns hpod
    · simp [PeerMatch.answer]
    · simp [PeerMatch.answer]
    · simp [PeerMatch.answer]
    · unfold peerNamespace
      cases hsel : p.namespaceSelector with
      | none =>
        dsimp only
        split_ifs <;> simp [PeerMatch.answer]
      | some sel =>
        rw [not_or, Bool.not_eq_true] at hno
        exact matchNamespace_known (h hno.1).1

theorem matchPeers_known (h : ∀ p ∈ ps, (matchPeer K policyNS p ep).answer ≠ .unknown) :
    (matchPeers K policyNS ps ep).answer ≠ .unknown := by
  unfold matchPeers
  split_ifs with hnil
  · simp [PeerMatch.answer]
  · rw [matchPeersFrom_answer (by decide)]
    apply or_ne_unknown (by decide)
    apply anyOf_ne_unknown
    intro a ha
    obtain ⟨p, hp, rfl⟩ := List.mem_map.mp ha
    exact h p hp

theorem side_known (h : Known policies peer) {nps : List NetworkPolicy} (hnps : nps ⊆ policies) :
    (side K self peer dst dir protocol port nps).result.answer ≠ .unknown := by
  rw [side_answer]
  split_ifs
  · apply anyOf_ne_unknown
    intro a ha
    obtain ⟨np, hnp, rfl⟩ := List.mem_map.mp ha
    unfold policyAnswer
    split_ifs
    · apply anyOf_ne_unknown
      intro a ha
      obtain ⟨r, hr, rfl⟩ := List.mem_map.mp ha
      have hrule : r ∈ np.ingress ++ np.egress := by
        unfold rules at hr
        split_ifs at hr <;> simp [hr]
      unfold ruleAnswer
      split_ifs
      · apply matchPeers_known
        intro p hp
        apply matchPeer_known
        intro hexternal
        obtain ⟨hlabels, hblocks⟩ := h hexternal
        exact ⟨hlabels, hblocks np (hnps hnp) r hrule p hp⟩
      · decide
    · decide
  · decide

end Known

section Check
variable {policies : List NetworkPolicy} {src : Endpoint}

theorem combineFrom_answer (ss : List (Option Side)) {result : Result} (h : result ≠ .denied) :
    (combineFrom result ss).answer = result.answer.and
      (ss.foldr (fun s a => (s.elim .yes fun s => s.result.answer).and a) .yes) := by
  induction ss generalizing result with
  | nil => simp [combineFrom]
  | cons s ss ih =>
    rw [List.foldr_cons, ← Answer.and_assoc]
    cases s with
    | none =>
      rw [combineFrom, ih h]
      simp
    | some s =>
      unfold combineFrom
      cases hs : s.result with
      | allowed => simpa [Result.answer, hs] using ih h
      | denied => cases result <;> simp_all [Result.answer, Answer.and]
      | unknown =>
        rw [ih (by decide)]
        cases result <;> simp_all [Result.answer, Answer.and]

theorem mem_byName {np : NetworkPolicy} : np ∈ byName policies ↔ np ∈ policies :=
  (List.perm_insertionSort _ policies).mem_iff

/-- The direction of an endpoint, or nothing to ask where there is no pod. -/
theorem end_decides (hK : K.Documented) (self peer dst : Endpoint) (dir : PolicyType)
    (protocol : String) (port : ℤ) (policies : List NetworkPolicy) :
    Decides (((if self.external = true then none
        else some (side K self peer dst dir protocol port (byName policies))) : Option Side).elim .yes
          fun s => s.result.answer)
      fun w : World => self.external = false →
        DirectionAllows K w policies self peer dst dir protocol port := by
  cases hexternal : self.external with
  | true => exact decides_yes fun w h => by cases h
  | false =>
    apply (side_decides hK self peer dst dir protocol port (byName policies)).congr
    intro w
    simp [DirectionAllows, mem_byName]

/-- The check answers only what holds in every world. -/
theorem check_decides (hK : K.Documented) (policies : List NetworkPolicy) (src dst : Endpoint)
    (protocol : String) (port : ℤ) :
    Decides (check K policies src dst protocol port).result.answer fun w : World =>
      Connects K w policies src dst protocol port := by
  unfold check Connects
  cases hsame : samePod src dst with
  | true => exact decides_yes fun w => Or.inl rfl
  | false =>
    by_cases hhost : (src.external = false ∧ src.hostNetwork = true) ∨
        (dst.external = false ∧ dst.hostNetwork = true)
    · simp only [Bool.false_eq_true, if_false, if_pos hhost]
      exact decides_unknown
    · simp only [Bool.false_eq_true, if_false, if_neg hhost, false_or]
      rw [combine, combineFrom_answer _ (by decide)]
      have hegress := end_decides hK src dst dst .egress (connectionProtocol protocol) port policies
      have hingress := end_decides hK dst src dst .ingress (connectionProtocol protocol) port policies
      rw [List.foldr_cons, List.foldr_cons, List.foldr_nil, and_yes]
      exact hegress.and hingress

theorem check_known (hsrc : Known policies src) (hdst : Known policies dst)
    (hhost : ¬ ((src.external = false ∧ src.hostNetwork = true) ∨
      (dst.external = false ∧ dst.hostNetwork = true))) :
    (check K policies src dst protocol port).result.answer ≠ .unknown := by
  have hsub : byName policies ⊆ policies := fun np hnp => mem_byName.mp hnp
  have hend {self peer : Endpoint} {dir : PolicyType} (hpeer : Known policies peer) :
      (((if self.external = true then none else some (side K self peer dst dir
        (connectionProtocol protocol) port (byName policies))) : Option Side).elim Answer.yes
          fun s => s.result.answer) ≠ .unknown := by
    split_ifs
    · decide
    · exact side_known hpeer hsub
  unfold check
  cases samePod src dst with
  | true => simp [Result.answer]
  | false =>
    simp only [Bool.false_eq_true, if_false, if_neg hhost]
    rw [combine, combineFrom_answer _ (by decide), List.foldr_cons, List.foldr_cons,
      List.foldr_nil, and_yes]
    exact and_ne_unknown (by decide) (and_ne_unknown (hend hdst) (hend hsrc))

/-- A definite answer holds in every world, where a pod always reaches itself; and where nothing
is unknown and no pod is on the host network, the answer is definite. -/
theorem check_sound (hK : K.Documented) (policies : List NetworkPolicy) (src dst : Endpoint)
    (protocol : String) (port : ℤ) :
    (∀ w : World,
      ((check K policies src dst protocol port).result = .allowed →
        Connects K w policies src dst protocol port) ∧
      ((check K policies src dst protocol port).result = .denied →
        ¬ Connects K w policies src dst protocol port)) ∧
    (Known policies src → Known policies dst →
      ¬ ((src.external = false ∧ src.hostNetwork = true) ∨
        (dst.external = false ∧ dst.hostNetwork = true)) →
      (check K policies src dst protocol port).result ≠ .unknown) := by
  have hdecides := check_decides hK policies src dst protocol port
  refine ⟨fun w => ⟨fun hallowed => ?_, fun hdenied => ?_⟩, fun hsrc hdst hhost hunknown => ?_⟩
  · exact hdecides.yes (by rw [hallowed]; rfl) w
  · exact hdecides.no (by rw [hdenied]; rfl) w
  · exact check_known (K := K) hsrc hdst hhost (by rw [hunknown]; rfl)

/-- One requirement, of the value of its key. -/
def labelMeets (r : LabelSelectorRequirement) (value : Option String) : Bool :=
  if r.operator = "In" then value.any fun v => r.values.contains v
  else if r.operator = "NotIn" then value.all fun v => !r.values.contains v
  else if r.operator = "Exists" then value.isSome
  else value.isNone

/-- The selectors of the four operators, without the checks on keys and values. -/
def labelSelectors : Apimachinery where
  Selector := List LabelSelectorRequirement
  Requirement := LabelSelectorRequirement
  asSelector sel :=
    if sel.matchExpressions.all (fun r =>
        ["In", "NotIn", "Exists", "DoesNotExist"].contains r.operator) = true then
      some (sel.matchLabels.map (fun kv => ⟨kv.1, "In", [kv.2]⟩) ++ sel.matchExpressions)
    else none
  selectorMatches s l := s.all fun r => labelMeets r (l r.key)
  requirements s := (s, true)
  key := LabelSelectorRequirement.key
  requirementMatches r l := labelMeets r (l r.key)

theorem labelSelectors_documented : labelSelectors.Documented where
  nothing s l h := by cases h
  all s l _ := List.all_eq_true
  ownKey r l l' h := congrArg (labelMeets r) h

def web : Endpoint where
  ns := "shop"
  namespaceLabels := none
  pod := "web-1"
  labels k := if k = "app" then some "web" else none
  ports := [⟨"http", 8080, "TCP"⟩]
  ips := [.v4 0x0af4000a]
  hostNetwork := false
  external := false

/-- Everything into and out of `shop` is closed, but what a rule opens by a namespace's name. -/
def shopPolicy (rs : List Rule) : NetworkPolicy :=
  ⟨"shop", "closed", ⟨[], []⟩, [.ingress, .egress], rs, []⟩

theorem check_sound_web :
    (∃ w, Connects labelSelectors w
      [⟨"shop", "open", ⟨[("app", "web")], []⟩, [.ingress],
        [⟨[⟨none, some ⟨[(namespaceNameLabel, "ops")], []⟩, none⟩], [⟨none, some (.str "http"), none⟩]⟩],
        []⟩] { web with ns := "ops", pod := "probe" } web "" 8080) ∧
    (check labelSelectors [shopPolicy []] { web with namespaceLabels := some fun _ => none, pod := "b" }
      { web with namespaceLabels := some fun _ => none } "UDP" 53).result ≠ .unknown := by
  refine ⟨⟨⟨knownLabels, fun ns => by simp [knownLabels, withName], true⟩, ?_⟩, ?_⟩
  · exact ((check_sound labelSelectors_documented _ _ _ _ _).1 _).1 (by decide)
  · apply (check_sound labelSelectors_documented _ _ _ _ _).2
    · intro _
      exact ⟨by simp, by simp [shopPolicy]⟩
    · intro _
      exact ⟨by simp, by simp [shopPolicy]⟩
    · simp [web]

/-- Policies that close a pod in both directions do not close it to itself. -/
theorem same_pod_allowed :
    (check labelSelectors [shopPolicy []] web web "TCP" 8080).result = .allowed ∧
      ¬ ∃ w, PoliciesAllow labelSelectors w [shopPolicy []] web web "TCP" 8080 := by
  refine ⟨by decide, ?_⟩
  rintro ⟨w, hegress, -⟩
  rcases hegress rfl with hnone | ⟨np, hnp, -, r, hr, -⟩
  · exact absurd (hnone _ List.mem_cons_self) (by decide)
  · rw [List.mem_singleton.mp hnp] at hr
    cases hr

end Check

end Kubeast.Netpol
