import Mathlib.Data.Nat.Notation
import Mathlib.Data.Int.Notation
import Mathlib.Data.List.Sort
import Mathlib.Logic.Function.Basic

/-! Addresses and prefixes as `net/netip` has them. -/
namespace Kubeast.Netip

/-- `netip.Addr`; the zero value is no address. -/
inductive Addr
  | zero
  | v4 (n : BitVec 32)
  | v6 (n : BitVec 128) (zone : String)
deriving DecidableEq

structure Prefix where
  ip : Addr
  bits : ℕ
deriving DecidableEq

section Parse

def isDigit (c : Char) : Bool := '0' ≤ c && c ≤ '9'

def isHexDigit (c : Char) : Bool := isDigit c || ('a' ≤ c && c ≤ 'f') || ('A' ≤ c && c ≤ 'F')

def digitValue (c : Char) : ℕ :=
  if isDigit c then c.toNat - '0'.toNat
  else if 'a' ≤ c then c.toNat - 'a'.toNat + 10
  else c.toNat - 'A'.toNat + 10

def numeral (base : ℕ) (s : List Char) : ℕ := s.foldl (fun n c => n * base + digitValue c) 0

/-- One field of an IPv4 address: no leading zero, at most 255. -/
def parseOctet (s : List Char) : Option ℕ :=
  if s = [] ∨ s.all isDigit = false ∨ (s.head? = some '0' ∧ s.length > 1) ∨ numeral 10 s > 255
  then none else some (numeral 10 s)

def parseIPv4Fields (s : List Char) : Option (List ℕ) :=
  let fields := s.splitOn '.'
  if fields.length = 4 then fields.mapM parseOctet else none

def parseIPv4 (s : List Char) : Option Addr :=
  (parseIPv4Fields s).map fun fs => .v4 (BitVec.ofNat 32 (fs.foldl (fun n f => n * 256 + f) 0))

/-- The groups of an IPv6 address, with the place of `::` among them; `room` is how many groups
are still to come at most. -/
def parseGroups : ℕ → List ℕ → Option ℕ → List Char → Option (List ℕ × Option ℕ)
  | 0, groups, ellipsis, s => if s = [] then some (groups, ellipsis) else none
  | room + 1, groups, ellipsis, s =>
      let hex := s.takeWhile isHexDigit
      let rest := s.dropWhile isHexDigit
      if hex = [] ∨ hex.length > 4 then none
      else if rest.head? = some '.' then
        -- the last two groups may be written as an IPv4 address
        if (ellipsis = none ∧ groups.length ≠ 6) ∨ groups.length + 2 > 8 then none
        else do
          let fields ← parseIPv4Fields s
          let word (i : ℕ) := fields.getD i 0 * 256 + fields.getD (i + 1) 0
          some (groups ++ [word 0, word 2], ellipsis)
      else
        let groups := groups ++ [numeral 16 hex]
        match rest with
        | [] => some (groups, ellipsis)
        | [':'] => none
        | ':' :: ':' :: rest =>
            if ellipsis ≠ none then none
            else if rest = [] then some (groups, some groups.length)
            else parseGroups room groups (some groups.length) rest
        | ':' :: rest => parseGroups room groups ellipsis rest
        | _ => none

/-- The groups with the zeros that `::` stands for, at least one. -/
def expandEllipsis (groups : List ℕ) : Option ℕ → Option (List ℕ)
  | none => if groups.length < 8 then none else some groups
  | some i => if groups.length < 8 then
      some (groups.take i ++ List.replicate (8 - groups.length) 0 ++ groups.drop i) else none

def parseIPv6 (s : List Char) : Option Addr := do
  let address := s.takeWhile (· ≠ '%')
  let zone := (s.dropWhile (· ≠ '%')).drop 1
  if '%' ∈ s ∧ zone = [] then none
  else
    let groups ← match address with
      | [':', ':'] => some ([], some 0)
      | ':' :: ':' :: rest => parseGroups 8 [] (some 0) rest
      | _ => parseGroups 8 [] none address
    let groups ← expandEllipsis groups.1 groups.2
    some (.v6 (BitVec.ofNat 128 (groups.foldl (fun n g => n * 65536 + g) 0)) (String.ofList zone))

def parseAddr (s : String) : Option Addr :=
  match s.toList.find? fun c => c = '.' ∨ c = ':' ∨ c = '%' with
  | some '.' => parseIPv4 s.toList
  | some ':' => parseIPv6 s.toList
  | _ => none

def Addr.bitLen : Addr → ℕ
  | .zero => 0
  | .v4 _ => 32
  | .v6 _ _ => 128

def Addr.hasZone : Addr → Bool
  | .v6 _ zone => zone ≠ ""
  | _ => false

/-- `ParsePrefix`: the part after the last slash is the length, with no sign or leading zero. -/
def parsePrefix (s : String) : Option Prefix :=
  let after := (s.toList.reverse.takeWhile (· ≠ '/')).reverse
  if '/' ∉ s.toList then none
  else do
    let ip ← parseAddr (String.ofList (s.toList.take (s.toList.length - after.length - 1)))
    if ip.hasZone = true ∨ after = [] ∨ after.all isDigit = false ∨
        (after.head? = some '0' ∧ after.length > 1) ∨ numeral 10 after > ip.bitLen then none
    else some ⟨ip, numeral 10 after⟩

end Parse

/-- An IPv4 address inside IPv6 as the IPv4 address. -/
def Addr.unmap : Addr → Addr
  | .v6 n zone => if n >>> 32 = 0xffff then .v4 (n.setWidth 32) else .v6 n zone
  | a => a

def Prefix.masked (p : Prefix) : Prefix :=
  match p.ip with
  | .zero => p
  | .v4 n => ⟨.v4 (n &&& (BitVec.allOnes 32 <<< (32 - p.bits))), p.bits⟩
  | .v6 n _ => ⟨.v6 (n &&& (BitVec.allOnes 128 <<< (128 - p.bits))) "", p.bits⟩

def Prefix.contains (p : Prefix) : Addr → Bool
  | .zero => false
  | .v4 n => match p.ip with
      | .v4 m => (n ^^^ m) >>> (32 - p.bits) = 0
      | _ => false
  | .v6 n zone => match p.ip with
      | .v6 m _ => zone = "" && (n ^^^ m) >>> (128 - p.bits) = 0
      | _ => false

end Kubeast.Netip

/-! The check of a connection against NetworkPolicies (`pkg/netpol`). The label selectors of
`k8s.io/apimachinery` are a parameter. -/
namespace Kubeast.Netpol
open Netip

abbrev Labels := String → Option String

def namespaceNameLabel : String := "kubernetes.io/metadata.name"

structure LabelSelectorRequirement where
  key : String
  operator : String
  values : List String

structure LabelSelector where
  matchLabels : List (String × String)
  matchExpressions : List LabelSelectorRequirement

/-- What the check uses of `metav1` and `labels`: `asSelector` is `LabelSelectorAsSelector`, which
fails on a selector that is not valid. -/
structure Apimachinery where
  Selector : Type
  Requirement : Type
  asSelector : LabelSelector → Option Selector
  selectorMatches : Selector → Labels → Bool
  requirements : Selector → List Requirement × Bool
  key : Requirement → String
  requirementMatches : Requirement → Labels → Bool

/-- What their documentation says: a selector that is not selectable selects nothing, any other
asks for all its requirements, and a requirement asks about the value of its key. -/
structure Apimachinery.Documented (K : Apimachinery) : Prop where
  nothing : ∀ s l, (K.requirements s).2 = false → K.selectorMatches s l = false
  all : ∀ s l, (K.requirements s).2 = true → (K.selectorMatches s l = true ↔
    ∀ r ∈ (K.requirements s).1, K.requirementMatches r l = true)
  ownKey : ∀ r l l', l (K.key r) = l' (K.key r) →
    K.requirementMatches r l = K.requirementMatches r l'

structure IPBlock where
  cidr : String
  except : List String

structure Peer where
  podSelector : Option LabelSelector
  namespaceSelector : Option LabelSelector
  ipBlock : Option IPBlock

inductive IntOrString
  | int (n : ℤ)
  | str (s : String)

structure Port where
  protocol : Option String
  port : Option IntOrString
  endPort : Option ℤ

/-- A rule in either direction; `peers` is `From` or `To`. -/
structure Rule where
  peers : List Peer
  ports : List Port

/-- `corev1.PolicyType`, with the values that are no direction. -/
inductive PolicyType
  | ingress
  | egress
  | other (name : String)
deriving DecidableEq

/-- `networkingv1.NetworkPolicy`; `ns` is its namespace. -/
structure NetworkPolicy where
  ns : String
  name : String
  podSelector : LabelSelector
  policyTypes : List PolicyType
  ingress : List Rule
  egress : List Rule

structure ContainerPort where
  name : String
  containerPort : ℤ
  protocol : String

/-- One end of a connection; `ns` is its namespace, whose labels may not be known. -/
structure Endpoint where
  ns : String
  namespaceLabels : Option Labels
  pod : String
  labels : Labels
  ports : List ContainerPort
  ips : List Addr
  hostNetwork : Bool
  external : Bool

inductive Result
  | allowed
  | denied
  | unknown
deriving DecidableEq

def Result.text : Result → String
  | .allowed => "allowed"
  | .denied => "denied"
  | .unknown => "unknown"

/-- Why a rule may or may not allow the connection. -/
inductive Undecided
  | podIPBlock
  | namespaceUnknown
deriving DecidableEq

inductive Reason
  | noRules
  | peer
  | port
  | namedPort
  | undecided (u : Undecided)
deriving DecidableEq

def Reason.text : Reason → String
  | .noRules => "no_rules"
  | .peer => "peer"
  | .port => "port"
  | .namedPort => "named_port"
  | .undecided .podIPBlock => "pod_ip_block"
  | .undecided .namespaceUnknown => "namespace_labels_unknown"

inductive Note
  | samePod
  | hostNetwork
deriving DecidableEq

def Note.text : Note → String
  | .samePod => "same_pod"
  | .hostNetwork => "host_network"

structure RuleRef where
  policy : String
  rule : ℤ
deriving DecidableEq

structure RuleMiss where
  policy : String
  rule : ℤ
  reason : Reason
deriving DecidableEq

/-- What `side` has gathered of a direction before its result. -/
structure Tally where
  isolated : Bool
  policies : List String
  allowedBy : List RuleRef
  undecided : List RuleMiss
  misses : List RuleMiss
deriving DecidableEq

structure Side extends Tally where
  result : Result
deriving DecidableEq

structure Verdict where
  result : Result
  egress : Option Side
  ingress : Option Side
  notes : List Note
deriving DecidableEq

/-- The answers of `matchPeer`: the empty string, `matched` or an undecided reason. -/
inductive PeerMatch
  | none
  | matched
  | undecided (u : Undecided)
deriving DecidableEq

def affects (np : NetworkPolicy) (dir : PolicyType) : Bool :=
  if np.policyTypes.length > 0 then np.policyTypes.contains dir
  else if dir = .ingress then true
  else np.egress.length > 0

def rules (np : NetworkPolicy) (dir : PolicyType) : List Rule :=
  if dir = .ingress then np.ingress else np.egress

def namedPort (ports : List ContainerPort) (name protocol : String) : Option ℤ :=
  (ports.find? fun cp =>
    cp.name == name && (if cp.protocol = "" then "TCP" else cp.protocol) == protocol).map
    ContainerPort.containerPort

/-- The loop of `matchPorts`, with the reason so far. -/
def matchPortsFrom (dst : Endpoint) (protocol : String) (port : ℤ) :
    Reason → List Port → Option Reason
  | reason, [] => some reason
  | reason, p :: ps =>
      let proto := p.protocol.getD "TCP"
      if proto ≠ protocol then matchPortsFrom dst protocol port reason ps
      else match p.port with
        | none => none
        | some (.str name) =>
            if dst.external = true then matchPortsFrom dst protocol port reason ps
            else match namedPort dst.ports name proto with
              | none => matchPortsFrom dst protocol port .namedPort ps
              | some num =>
                  if num = port then none else matchPortsFrom dst protocol port reason ps
        | some (.int lo) =>
            if port ≥ lo ∧ port ≤ p.endPort.getD lo then none
            else matchPortsFrom dst protocol port reason ps

/-- `none` when the rule's ports take the connection. -/
def matchPorts (ports : List Port) (dst : Endpoint) (protocol : String) (port : ℤ) :
    Option Reason :=
  if ports.length = 0 then none else matchPortsFrom dst protocol port .port ports

def inBlock (b : IPBlock) (ips : List Addr) : Bool :=
  match parsePrefix b.cidr with
  | none => false
  | some cidr => ips.any fun ip =>
      cidr.masked.contains ip.unmap &&
        !b.except.any fun e => (parsePrefix e).any fun ex => ex.masked.contains ip.unmap

section Selectors
variable (K : Apimachinery)

def selects (sel : LabelSelector) (podLabels : Labels) : Bool :=
  match K.asSelector sel with
  | none => false
  | some s => K.selectorMatches s podLabels

/-- The labels of a namespace, where its name need not be listed. -/
def withName (ns : String) (labels : Labels) : Labels := fun k =>
  (labels k).or (if k = namespaceNameLabel then some ns else none)

/-- What is known of the labels of a namespace when they could not be read. -/
def knownLabels (ns : String) : Labels := withName ns fun _ => none

def matchNamespace (sel : LabelSelector) (ep : Endpoint) : PeerMatch :=
  match K.asSelector sel with
  | none => .none
  | some s => match ep.namespaceLabels with
    | some labels =>
        if K.selectorMatches s (withName ep.ns labels) = true then .matched else .none
    | none =>
        if (K.requirements s).2 = false then .none
        else if (K.requirements s).1.any (fun r => K.key r == namespaceNameLabel &&
            !K.requirementMatches r (knownLabels ep.ns)) = true then .none
        else if (K.requirements s).1.any (fun r => K.key r != namespaceNameLabel) = true then
          .undecided .namespaceUnknown
        else .matched

/-- The value `ns` of `matchPeer`: what the namespace of the pods makes of a peer. -/
def peerNamespace (policyNS : String) (p : Peer) (ep : Endpoint) : PeerMatch :=
  match p.namespaceSelector with
  | none => if ep.ns = policyNS then .matched else .none
  | some sel => matchNamespace K sel ep

def matchPeer (policyNS : String) (p : Peer) (ep : Endpoint) : PeerMatch :=
  match p.ipBlock with
  | some b =>
      if p.podSelector.isSome = true ∨ p.namespaceSelector.isSome = true ∨
          inBlock b ep.ips = false then .none
      else if ep.external = true then .matched
      else .undecided .podIPBlock
  | none =>
      if ep.external = true ∨ (p.podSelector.isNone = true ∧ p.namespaceSelector.isNone = true) then
        .none
      else if peerNamespace K policyNS p ep = .none then .none
      else if p.podSelector.any (fun sel => !selects K sel ep.labels) = true then .none
      else peerNamespace K policyNS p ep

/-- The loop of `matchPeers`, with the best answer so far. -/
def matchPeersFrom (policyNS : String) (ep : Endpoint) : PeerMatch → List Peer → PeerMatch
  | best, [] => best
  | best, p :: ps => match matchPeer K policyNS p ep with
    | .matched => .matched
    | .undecided .namespaceUnknown =>
        matchPeersFrom policyNS ep (.undecided .namespaceUnknown) ps
    | .undecided .podIPBlock =>
        matchPeersFrom policyNS ep (if best = .none then .undecided .podIPBlock else best) ps
    | .none => matchPeersFrom policyNS ep best ps

def matchPeers (policyNS : String) (peers : List Peer) (ep : Endpoint) : PeerMatch :=
  if peers.length = 0 then .matched else matchPeersFrom K policyNS ep .none peers

section Direction
variable (self peer dst : Endpoint) (dir : PolicyType) (protocol : String) (port : ℤ)

/-- One rule of a policy that selects the pod; its index comes with it. -/
def sideRule (np : NetworkPolicy) (t : Tally) (r : Rule × ℕ) : Tally :=
  let pm := matchPeers K np.ns r.1.peers peer
  let miss := if pm = .none then some .peer else matchPorts r.1.ports dst protocol port
  match miss with
  | some reason => { t with misses := t.misses ++ [⟨np.name, r.2, reason⟩] }
  | none => match pm with
    | .undecided u => { t with undecided := t.undecided ++ [⟨np.name, r.2, .undecided u⟩] }
    | _ => { t with allowedBy := t.allowedBy ++ [⟨np.name, r.2⟩] }

/-- A policy that selects the pod for the direction. -/
def selected (np : NetworkPolicy) : Bool :=
  np.ns == self.ns && affects np dir && selects K np.podSelector self.labels

def sidePolicy (t : Tally) (np : NetworkPolicy) : Tally :=
  if selected K self dir np = false then t
  else
    let t := { t with isolated := true, policies := t.policies ++ [np.name] }
    if (rules np dir).length = 0 then { t with misses := t.misses ++ [⟨np.name, -1, .noRules⟩] }
    else (rules np dir).zipIdx.foldl (sideRule K peer dst protocol port np) t

def Tally.result (t : Tally) : Result :=
  if t.isolated = false ∨ t.allowedBy.length > 0 then .allowed
  else if t.undecided.length > 0 then .unknown
  else .denied

def side (policies : List NetworkPolicy) : Side :=
  let t := policies.foldl (sidePolicy K self peer dst dir protocol port) ⟨false, [], [], [], []⟩
  { t with result := t.result }

end Direction

/-- The loop of `combine`, with the result so far. -/
def combineFrom : Result → List (Option Side) → Result
  | result, [] => result
  | result, none :: ss => combineFrom result ss
  | result, some s :: ss => match s.result with
    | .denied => .denied
    | .unknown => combineFrom .unknown ss
    | .allowed => combineFrom result ss

def combine (sides : List (Option Side)) : Result := combineFrom .allowed sides

/-- `byName`: policies by namespace, then name. -/
def byName (policies : List NetworkPolicy) : List NetworkPolicy :=
  let less (a b : NetworkPolicy) : Bool :=
    if a.ns ≠ b.ns then a.ns < b.ns else a.name < b.name
  policies.insertionSort fun a b => !less b a

def samePod (src dst : Endpoint) : Bool :=
  !src.external && !dst.external && src.pod != "" && src.pod == dst.pod && src.ns == dst.ns

def check (policies : List NetworkPolicy) (src dst : Endpoint) (protocol : String) (port : ℤ) :
    Verdict :=
  let protocol := if protocol = "" then "TCP" else protocol
  if samePod src dst = true then ⟨.allowed, none, none, [.samePod]⟩
  else
    let sorted := byName policies
    let egress := if src.external = true then none
      else some (side K src dst dst .egress protocol port sorted)
    let ingress := if dst.external = true then none
      else some (side K dst src dst .ingress protocol port sorted)
    if (src.external = false ∧ src.hostNetwork = true) ∨
        (dst.external = false ∧ dst.hostNetwork = true) then
      ⟨.unknown, egress, ingress, [.hostNetwork]⟩
    else ⟨combine [egress, ingress], egress, ingress, []⟩

end Selectors
end Kubeast.Netpol
