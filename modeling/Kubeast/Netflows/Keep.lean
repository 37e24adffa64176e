import Mathlib.Data.Int.Notation
import Mathlib.Data.List.Basic
import Mathlib.Data.List.Sort
import Mathlib.Data.String.Basic

/-! What a network flow read answers (`internal/netflows/store.go`): the flows of a request within the
reader's scope, and the connections they are folded into. -/
namespace Kubeast.Netflows

structure Workload where
  kind : String
  name : String
deriving DecidableEq

/-- One side of a flow. -/
@[ext]
structure End where
  namespace_ : String
  pod : String
  workload : Option Workload
  ip : String
  port : ℕ
  names : List String
  service : String
  identity : ℕ
  serviceAddress : Bool
deriving DecidableEq

structure PolicyRef where
  kind : String
  namespace_ : String
  name : String
deriving DecidableEq

structure Policies where
  egressAllowedBy : List PolicyRef
  ingressAllowedBy : List PolicyRef
  egressDeniedBy : List PolicyRef
  ingressDeniedBy : List PolicyRef
deriving DecidableEq

/-- One flow, with the application part `L` the plugin saw; times are in nanoseconds. -/
structure Flow (L : Type*) where
  time : ℤ
  verdict : String
  dropReason : String
  direction : String
  isReply : Bool
  protocol : String
  source : End
  destination : End
  tcpFlags : String
  policies : Option Policies
  l7 : Option L
  node : String
  count : ℤ
  replyCount : ℤ
deriving DecidableEq

/-- What to read, by a reader of some namespaces or of all, as `Normalize` lets it through; nothing
is looked up. -/
structure Request where
  ns : String
  required : ns ≠ ""
  kind : String
  name : String
  more : List String
  verdicts : List String
  since : ℤ
  limit : ℕ
  scope : Option (List String)
  podSet : String

/-- The flows of one connection. -/
structure Group where
  source : End
  destination : End
  protocol : String
  observed : List String
  verdict : String
  dropReason : String
  policies : Option Policies
  count : ℤ
  replies : ℤ
  first : ℤ
  last : ℤ
deriving DecidableEq

structure Result (L : Type*) where
  ns : String
  kind : String
  name : String
  since : ℤ
  flows : List (Flow L)
  truncated : Bool
  redacted : Bool
  groups : List Group

variable {L : Type*}

/-- `strings.Cut(service, "/")`, where it is found. -/
def serviceNamespace (service : String) : Option String :=
  if '/' ∈ service.toList then some (String.ofList (service.toList.takeWhile (· ≠ '/'))) else none

namespace Request

def namespaces (r : Request) : List String := r.ns :: r.more

def side (r : Request) (e : End) : Bool :=
  if r.kind = "" then r.namespaces.any fun ns => e.namespace_ = ns
  else if e.namespace_ ≠ r.ns then false
  else if r.kind = "Pod" then e.pod = r.name || (r.podSet ≠ "" && e.pod = r.podSet)
  else e.workload.any fun w => w.kind = r.kind && w.name = r.name

def matchesFlow (r : Request) (f : Flow L) : Bool :=
  if !r.side f.source && !r.side f.destination then false
  else if r.verdicts.length = 0 then true
  else r.verdicts.any fun v => f.verdict = v

end Request

def inScope (scope : List String) (ns : String) : Bool := scope.contains ns

/-- `redact` for a reader with a scope, and whether it hid something. -/
def End.redact (scope : List String) (e : End) : End × Bool :=
  let serviceOutside := (serviceNamespace e.service).any fun ns => !inScope scope ns
  let serviceInside := (serviceNamespace e.service).any fun ns => inScope scope ns
  if e.namespace_ ≠ "" ∧ inScope scope e.namespace_ = true then
    if serviceOutside then ({ e with service := "", names := [] }, true) else (e, false)
  else if e.namespace_ = "" ∧ e.service = "" then (e, false)
  else if e.namespace_ = "" ∧ serviceInside = true then (e, false)
  else
    ({ e with pod := "", workload := none, service := "", identity := 0, names := [] },
      e.pod ≠ "" || e.workload ≠ none || e.service ≠ "" || e.identity ≠ 0 || 0 < e.names.length)

def PolicyRef.visible (scope : List String) (p : PolicyRef) : Bool :=
  p.namespace_ = "" || inScope scope p.namespace_

namespace Policies

def empty : Policies := ⟨[], [], [], []⟩

def refs (p : Policies) : List PolicyRef :=
  p.egressAllowedBy ++ p.ingressAllowedBy ++ p.egressDeniedBy ++ p.ingressDeniedBy

def visible (scope : List String) (p : Policies) : Policies where
  egressAllowedBy := p.egressAllowedBy.filter (PolicyRef.visible scope)
  ingressAllowedBy := p.ingressAllowedBy.filter (PolicyRef.visible scope)
  egressDeniedBy := p.egressDeniedBy.filter (PolicyRef.visible scope)
  ingressDeniedBy := p.ingressDeniedBy.filter (PolicyRef.visible scope)

end Policies

/-- `redactPolicies`, and whether it left a policy out. -/
def redactPolicies (scope : List String) : Option Policies → Option Policies × Bool
  | none => (none, false)
  | some p =>
      (if p.visible scope = .empty then none else some (p.visible scope),
        p.refs.any fun ref => !ref.visible scope)

/-- What the loop of `keep` does to a flow. -/
def Flow.redact (scope : Option (List String)) (f : Flow L) : Flow L × Bool :=
  match scope with
  | none => (f, false)
  | some scope =>
      ({ f with
        source := (f.source.redact scope).1
        destination := (f.destination.redact scope).1
        policies := (redactPolicies scope f.policies).1
        node := "" },
       (f.source.redact scope).2 || (f.destination.redact scope).2 || (redactPolicies scope f.policies).2)

section Groups

def workloadText (w : Option Workload) : String := w.elim "" fun w => w.kind ++ "/" ++ w.name

def endKey (e : End) : String := "|".intercalate [e.namespace_, e.pod, workloadText e.workload, e.ip]

/-- `mergePolicies` for one list: what is not there yet is added. -/
def addRefs (dst src : List PolicyRef) : List PolicyRef :=
  src.foldl (fun dst p => if p ∈ dst then dst else dst ++ [p]) dst

theorem mem_addRefs {dst src : List PolicyRef} {ref : PolicyRef} :
    ref ∈ addRefs dst src ↔ ref ∈ dst ∨ ref ∈ src := by
  unfold addRefs
  induction src generalizing dst with
  | nil => simp
  | cons p src ih =>
    rw [List.foldl_cons, ih, List.mem_cons]
    split_ifs with hp
    · exact ⟨fun h => h.imp_right .inr, fun h => h.elim .inl (·.elim (fun heq => .inl (heq ▸ hp)) .inr)⟩
    · simp [or_assoc]

def mergePolicies (a b : Option Policies) : Option Policies :=
  match b with
  | none => a
  | some b =>
      let a := a.getD .empty
      some ⟨addRefs a.egressAllowedBy b.egressAllowedBy, addRefs a.ingressAllowedBy b.ingressAllowedBy,
        addRefs a.egressDeniedBy b.egressDeniedBy, addRefs a.ingressDeniedBy b.ingressDeniedBy⟩

/-- The end that opened a connection: its port changes per connection. -/
def End.client (e : End) : End := { e with port := 0, names := [] }

def End.server (e : End) : End := { e with names := [] }

/-- The ends of the connection a flow belongs to: a reply goes the other way. -/
def Flow.ends (f : Flow L) : End × End :=
  if f.isReply then (f.destination.client, f.source.server) else (f.source.client, f.destination.server)

def Flow.groupKey (f : Flow L) : String :=
  "#".intercalate [endKey f.ends.1, endKey f.ends.2, toString f.ends.2.port, f.protocol, f.verdict, f.dropReason]

def Flow.newGroup (f : Flow L) : Group where
  source := f.ends.1
  destination := f.ends.2
  protocol := f.protocol
  observed := []
  verdict := f.verdict
  dropReason := f.dropReason
  policies := none
  count := 0
  replies := 0
  first := f.time
  last := f.time

def Group.add (g : Group) (f : Flow L) : Group :=
  let g := if f.time < g.first then { g with first := f.time } else g
  if f.isReply then { g with replies := g.replies + 1 }
  else
    let g := if 0 < f.count then { g with count := g.count + f.count, replies := g.replies + f.replyCount }
      else { g with count := g.count + 1 }
    let g := if f.direction ≠ "" ∧ f.direction ∉ g.observed then
        { g with observed := (g.observed ++ [f.direction]).insertionSort (· ≤ ·) }
      else g
    { g with policies := mergePolicies g.policies f.policies }

/-- What one more flow makes of each field of its group. -/
theorem Group.add_eq (g : Group) (f : Flow L) : g.add f =
    { g with
      first := min g.first f.time
      count := if f.isReply then g.count else if 0 < f.count then g.count + f.count else g.count + 1
      replies := if f.isReply then g.replies + 1
        else if 0 < f.count then g.replies + f.replyCount else g.replies
      observed := if f.isReply = false ∧ f.direction ≠ "" ∧ f.direction ∉ g.observed then
          (g.observed ++ [f.direction]).insertionSort (· ≤ ·)
        else g.observed
      policies := if f.isReply then g.policies else mergePolicies g.policies f.policies } := by
  have hfirst : (if f.time < g.first then { g with first := f.time } else g) =
      { g with first := min g.first f.time } := by
    split_ifs with h
    · rw [min_eq_right h.le]
    · rw [min_eq_left (not_lt.mp h)]
  unfold Group.add
  rw [hfirst]
  cases f.isReply
  · by_cases hcount : 0 < f.count <;>
      by_cases hnew : f.direction ≠ "" ∧ f.direction ∉ g.observed <;>
      simp [hcount, hnew]
  · simp

/-- The groups so far, each under its key. -/
def addFlow (groups : List (String × Group)) (f : Flow L) : List (String × Group) :=
  if groups.any fun g => g.1 = f.groupKey then
    groups.map fun g => if g.1 = f.groupKey then (g.1, g.2.add f) else g
  else groups ++ [(f.groupKey, f.newGroup.add f)]

def connKey (g : Group) : String :=
  "#".intercalate [endKey g.source, endKey g.destination, toString g.destination.port, g.protocol]

def dropSenderHalves (groups : List Group) : List Group :=
  let dropped := (groups.filter fun g => g.verdict = "DROPPED" && g.observed.contains "ingress").map connKey
  groups.filter fun g =>
    !(g.verdict = "FORWARDED" && g.observed = ["egress"] && dropped.contains (connKey g))

def group (flows : List (Flow L)) : List Group :=
  dropSenderHalves ((flows.foldl addFlow []).map Prod.snd)

end Groups

/-- The loop of `keep` with what it has kept so far. -/
def keepLoop (r : Request) (cutoff : ℤ) (out : List (Flow L)) (redacted truncated : Bool) :
    List (Flow L) → List (Flow L) × Bool × Bool
  | [] => (out, redacted, truncated)
  | f :: flows =>
      if f.time < cutoff ∨ r.matchesFlow f = false then keepLoop r cutoff out redacted truncated flows
      else if out.length = r.limit then (out, redacted, true)
      else keepLoop r cutoff (out ++ [(f.redact r.scope).1]) (redacted || (f.redact r.scope).2)
        truncated flows

def keep (r : Request) (flows : List (Flow L)) (now : ℤ) (truncated : Bool) : Result L :=
  let (out, redacted, truncated) := keepLoop r (now - r.since) [] false truncated flows
  { ns := r.ns, kind := r.kind, name := r.name, since := r.since, flows := out
    truncated := truncated, redacted := redacted, groups := group out }

end Kubeast.Netflows
