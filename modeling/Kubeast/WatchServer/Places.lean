import Kubeast.Foundation.Keyed
import Kubeast.Foundation.Text
import Kubeast.Foundation.Transition

/-! The places of the live watches (`services/k8s-service-go/internal/ws/multiplexer.go`): the map of
all of them, the part of it that each connection holds, and who takes entries out. What runs under the
lock is one step. -/
namespace Kubeast.WatchServer
open Keyed

/-- A client frame. -/
structure RequestMessage where
  type : String
  clusterID : String
  path : String
  query : String

/-- Why a watch is refused: the message and the reason. -/
structure Refusal where
  message : String
  reason : String
deriving DecidableEq

def reasonLimit : String := "limit"

/-- What `%p` writes of a connection: 0x and hexadecimal digits. -/
abbrev Name := {s : String // ':' ∉ s.toList}

/-- A subscription; its place in the list is its pointer. -/
structure Watch where
  conn : ℕ
  key : String
  cancelled : Bool
deriving DecidableEq

/-- A connection with the cluster its handshake named. It is open until its deferred cleanup has run. -/
structure Conn where
  wsID : Name
  cluster : Option String
  isOpen : Bool
  connSubs : List (String × ℕ)

structure State where
  subs : List (String × ℕ)
  conns : List Conn
  watches : List Watch
  /-- The refusals that were sent, each to a connection. -/
  sent : List (ℕ × Refusal)

/-- `MaxSubscriptions` and `MaxSubscriptionsPerConn`. -/
structure Limits where
  maxSubscriptions : ℤ
  maxSubscriptionsPerConn : ℤ

def defaultMaxSubscriptions : ℕ := 2000

def defaultMaxSubscriptionsPerConn : ℕ := 50

def Limits.maxTotal (m : Limits) : ℕ :=
  if m.maxSubscriptions ≤ 0 then defaultMaxSubscriptions else m.maxSubscriptions.toNat

def Limits.maxPerConn (m : Limits) : ℕ :=
  if m.maxSubscriptionsPerConn ≤ 0 then defaultMaxSubscriptionsPerConn else m.maxSubscriptionsPerConn.toNat

def subscriptionCluster (c : Conn) (id : String) : String := if id = "" then c.cluster.getD id else id

/-- `%s:%s:%s?%s`. -/
def Conn.key (c : Conn) (req : RequestMessage) : String :=
  c.wsID.1 ++ ":" ++ subscriptionCluster c req.clusterID ++ ":" ++ req.path ++ "?" ++ req.query

def limitRefusal (m : Limits) (c : Conn) : Refusal where
  message := "max subscriptions reached for " ++
    (if c.connSubs.length < m.maxPerConn then "the server" else "this connection") ++ " (" ++
    toString (if c.connSubs.length < m.maxPerConn then m.maxTotal else m.maxPerConn) ++
    "), cannot create new watch"
  reason := reasonLimit

def Watch.cancel (w : Watch) : Watch := { w with cancelled := true }

namespace State

def init : State := ⟨[], [], [], []⟩

/-- A new watch in both maps. -/
def take (s : State) (i : ℕ) (c : Conn) (key : String) : State :=
  { s with
    subs := put s.subs key s.watches.length
    conns := s.conns.set i { c with connSubs := put c.connSubs key s.watches.length }
    watches := s.watches ++ [⟨i, key, false⟩] }

/-- A key out of both maps, the watch cancelled. -/
def drop (s : State) (i : ℕ) (c : Conn) (key : String) (n : ℕ) : State :=
  { s with
    subs := erase s.subs key
    conns := s.conns.set i { c with connSubs := erase c.connSubs key }
    watches := s.watches.modify n Watch.cancel }

def request (m : Limits) (s : State) (i : ℕ) (c : Conn) (key : String) (refusal : Option Refusal) : State :=
  match refusal with
  | some r => { s with sent := s.sent ++ [(i, r)] }
  | none =>
    if (s.subs.lookup key).isSome then s
    else if m.maxPerConn ≤ c.connSubs.length ∨ m.maxTotal ≤ s.subs.length then
      { s with sent := s.sent ++ [(i, limitRefusal m c)] }
    else s.take i c key

def close (s : State) (i : ℕ) (c : Conn) (key : String) : State :=
  match c.connSubs.lookup key with
  | none => s
  | some n => s.drop i c key n

/-- One message of an open connection; `refusal` is what the checks of cluster, namespace and kind say. -/
def message (m : Limits) (s : State) (i : ℕ) (req : RequestMessage) (refusal : Option Refusal) : State :=
  match s.conns[i]? with
  | none => s
  | some c =>
    if c.isOpen then
      if req.type = "REQUEST" then s.request m i c (c.key req) refusal
      else if req.type = "CLOSE" then s.close i c (c.key req)
      else s
    else s

/-- A watch that has ended: cancelled, and out of the maps where it still holds its key. -/
def forgetSubscription (s : State) (n : ℕ) : State :=
  match s.watches[n]? with
  | none => s
  | some w =>
    if s.subs.lookup w.key = some n then
      { s with
        subs := erase s.subs w.key
        conns := s.conns.modify w.conn fun c => { c with connSubs := erase c.connSubs w.key }
        watches := s.watches.modify n Watch.cancel }
    else { s with watches := s.watches.modify n Watch.cancel }

/-- The entries of a connection out of the map of all, their watches cancelled. -/
def leave (s : State) (i : ℕ) (c : Conn) : State :=
  { s with
    subs := c.connSubs.foldl (fun subs e => erase subs e.1) s.subs
    conns := s.conns.set i { c with isOpen := false }
    watches := c.connSubs.foldl (fun watches e => watches.modify e.2 Watch.cancel) s.watches }

/-- The deferred cleanup. -/
def disconnect (s : State) (i : ℕ) : State :=
  match s.conns[i]? with
  | none => s
  | some c => if c.isOpen then s.leave i c else s

/-- A connection under a name that no open one has. -/
def connect (s : State) (wsID : Name) (cluster : Option String) : State :=
  if s.conns.any fun c => c.isOpen && c.wsID = wsID then s
  else { s with conns := s.conns ++ [⟨wsID, cluster, true, []⟩] }

end State

inductive Step
  | connect (wsID : Name) (cluster : Option String)
  | message (i : ℕ) (req : RequestMessage) (refusal : Option Refusal)
  | finish (n : ℕ)
  | disconnect (i : ℕ)

def step (m : Limits) (s : State) : Step → State
  | .connect wsID cluster => s.connect wsID cluster
  | .message i req refusal => s.message m i req refusal
  | .finish n => s.forgetSubscription n
  | .disconnect i => s.disconnect i

end Kubeast.WatchServer
