import Kubeast.Foundation.Table
import Kubeast.Foundation.Transition
import Mathlib.Logic.Function.Basic

/-! The page's one socket for all its watches (`frontend/src/services/watchMultiplexer.ts`): who
listens to what, the sockets it has made and what each was asked for, with every `await` a step of
its own. -/
namespace Kubeast.Multiplexer
open Transition

abbrev Listener := ℕ

structure ClientMessage where
  clusterId : String
  path : String
  query : String
deriving DecidableEq

def makeKey (clusterId path query : String) : String := clusterId ++ "\n" ++ path ++ "?" ++ query

def ClientMessage.key (m : ClientMessage) : String := makeKey m.clusterId m.path m.query

inductive ReadyState
  | connecting
  | «open»
  | closing
  | closed
deriving DecidableEq

/-- What waits for a socket to open and then sends every subscription. -/
inductive Resend
  | waiting
  | due
  | done
deriving DecidableEq

/-- A socket: `asked` are the keys REQUESTed on it and not CLOSEd after that, `handled` says that
its `onclose` has run, `settled` that the promise of its connection has been cleared. -/
structure Socket where
  readyState : ReadyState
  resend : Resend
  asked : List String
  handled : Bool
  settled : Bool
deriving DecidableEq

/-- A `subscribe` that sends its own REQUEST when it goes on. -/
structure Ask where
  key : String
  listener : Listener
  socket : ℕ
deriving DecidableEq

/-- The multiplexer, the sockets made so far, and what is pending: the subscribes that go on later,
the sockets that reconnects wait for, and the checks of an ended session. -/
structure State where
  listeners : String → List Listener
  subscriptions : Table ClientMessage.key
  sockets : List Socket
  socket : Option ℕ
  connecting : Bool
  reconnectTimer : Bool
  asks : List Ask
  reconnects : List ℕ
  checks : ℕ

namespace State

def start : State := ⟨fun _ => [], Table.empty, [], none, false, false, [], [], 0⟩

/-- `this.socket.readyState`. -/
def readyState (s : State) : Option ReadyState :=
  (s.socket.bind fun i => s.sockets[i]?).map Socket.readyState

def modify (s : State) (i : ℕ) (f : Socket → Socket) : State := { s with sockets := s.sockets.modify i f }

/-- `connect` has a socket to give, or to wait for. -/
def Connected (s : State) : Prop :=
  s.readyState = some .open ∨ s.readyState = some .connecting ∨ s.connecting = true

instance (s : State) : Decidable s.Connected :=
  inferInstanceAs (Decidable (s.readyState = some .open ∨ s.readyState = some .connecting ∨ s.connecting = true))

/-- What `connect` does at once; what it returns is the socket there is then. -/
def connect (s : State) : State :=
  if s.Connected then s
  else
    { s with
      sockets := s.sockets ++ [⟨.connecting, .waiting, [], false, false⟩]
      socket := some s.sockets.length
      connecting := true }

def scheduleReconnect (s : State) : State :=
  if s.reconnectTimer = true ∨ s.subscriptions.rows = [] then s else { s with reconnectTimer := true }

/-- The part of `subscribe` that writes down who listens. -/
def listen (s : State) (m : ClientMessage) (l : Listener) : State :=
  { s with
    listeners := Function.update s.listeners m.key
      (if l ∈ s.listeners m.key then s.listeners m.key else s.listeners m.key ++ [l])
    subscriptions := s.subscriptions.upsert m (fun x => if x.key = m.key then m else x)
      fun x => by split <;> simp_all }

def subscribe (s : State) (m : ClientMessage) (l : Listener) : State :=
  match s.socket with
  | some i =>
      if s.readyState = some .open ∧ s.subscriptions.get m.key = none then
        connect { s.listen m l with asks := s.asks ++ [⟨m.key, l, i⟩] }
      else (s.listen m l).connect
  | none => (s.listen m l).connect

def drop (s : State) (m : ClientMessage) : State :=
  { s with
    listeners := Function.update s.listeners m.key []
    subscriptions := s.subscriptions.delete fun x => x.key = m.key }

/-- A CLOSE on the socket there is, if it is open. -/
def sendClose (s : State) (key : String) : State :=
  match s.socket with
  | some i =>
      if s.readyState = some .open then s.modify i fun k => { k with asked := k.asked.filter (· ≠ key) } else s
  | none => s

def unsubscribe (s : State) (m : ClientMessage) (l : Listener) : State :=
  if s.listeners m.key = [] then s
  else if (s.listeners m.key).filter (· ≠ l) ≠ [] then
    { s with listeners := Function.update s.listeners m.key ((s.listeners m.key).filter (· ≠ l)) }
  else (s.drop m).sendClose m.key

/-- A REQUEST, on a socket that is open. -/
def request (keys : List String) (k : Socket) : Socket :=
  if k.readyState = .open then { k with asked := k.asked ++ keys } else k

/-- A `subscribe` goes on. -/
def ask (s : State) (n : ℕ) : State :=
  match s.asks[n]? with
  | none => s
  | some p =>
      if p.listener ∈ s.listeners p.key then
        { s.modify p.socket (request [p.key]) with asks := s.asks.eraseIdx n }
      else { s with asks := s.asks.eraseIdx n }

/-- The timer's `connect`, and the wait for its socket. -/
def reconnect (s : State) : State :=
  match s.connect.socket with
  | some i =>
      if s.connect.readyState = some .open then { s.connect with reconnectTimer := false }
      else { s.connect with reconnectTimer := false, reconnects := s.reconnects ++ [i] }
  | none => { s.connect with reconnectTimer := false }

/-- A socket is closed, and the page has none. -/
def clear (s : State) (i : ℕ) : State :=
  { s.modify i fun k => { k with readyState := .closed, handled := true } with
    socket := none
    connecting := false }

def onclose (s : State) (i : ℕ) (sessionEnded : Bool) : State :=
  if sessionEnded then { s.clear i with checks := s.checks + 1 } else (s.clear i).scheduleReconnect

/-- `dispatch`: the listeners a frame reaches. An empty id names no cluster. -/
def dispatch (s : State) (clusterId : Option String) (path query : String) : List Listener :=
  match clusterId.filter (· ≠ "") with
  | some clusterId => s.listeners (makeKey clusterId path query)
  | none => (s.subscriptions.select fun m => m.path = path && m.query = query).flatMap fun m => s.listeners m.key

end State

inductive Step
  | subscribe (m : ClientMessage) (l : Listener)
  | unsubscribe (m : ClientMessage) (l : Listener)
  | ask (n : ℕ)
  | timer
  | opened (i : ℕ)
  | resend (i : ℕ)
  | settle (i : ℕ)
  | error (i : ℕ)
  | closing (i : ℕ)
  | close (i : ℕ) (sessionEnded : Bool)
  | checked (reopen : Bool)
  | rejected (n : ℕ)

def step (s : State) : Step → State
  | .subscribe m l => s.subscribe m l
  | .unsubscribe m l => s.unsubscribe m l
  | .ask n => s.ask n
  | .timer => if s.reconnectTimer = true then s.reconnect else s
  | .opened i =>
      match s.sockets[i]? with
      | some k =>
          if k.readyState = .connecting then
            { s.modify i fun k => { k with readyState := .open, resend := .due } with
              reconnects := s.reconnects.filter (· ≠ i) }
          else s
      | none => s
  | .resend i =>
      match s.sockets[i]? with
      | some k =>
          if k.resend = .due then
            s.modify i fun k =>
              { State.request (s.subscriptions.rows.map ClientMessage.key) k with resend := .done }
          else s
      | none => s
  | .settle i =>
      match s.sockets[i]? with
      | some k =>
          if k.settled = false ∧ (k.resend = .done ∨ k.readyState = .closed) then
            { s.modify i fun k => { k with settled := true } with connecting := false }
          else s
      | none => s
  | .error i =>
      match s.sockets[i]? with
      | some k => if k.readyState = .connecting then s.modify i fun k => { k with readyState := .closed } else s
      | none => s
  | .closing i =>
      match s.sockets[i]? with
      | some k =>
          if k.readyState = .connecting ∨ k.readyState = .open then
            s.modify i fun k => { k with readyState := .closing }
          else s
      | none => s
  | .close i sessionEnded =>
      match s.sockets[i]? with
      | some k => if k.handled = false then s.onclose i sessionEnded else s
      | none => s
  | .checked reopen =>
      if s.checks = 0 then s
      else if reopen then { s with checks := s.checks - 1 }.scheduleReconnect
      else { s with checks := s.checks - 1 }
  | .rejected n =>
      match s.reconnects[n]? with
      | some i =>
          if (s.sockets[i]?).map Socket.readyState = some .closed then
            { s with reconnects := s.reconnects.eraseIdx n }.scheduleReconnect
          else s
      | none => s

/-- No subscribe is waiting to go on, and no open socket has subscriptions to send. -/
structure State.Quiet (s : State) : Prop where
  asks : s.asks = []
  resend : ∀ k ∈ s.sockets, k.resend ≠ .due

end Kubeast.Multiplexer
