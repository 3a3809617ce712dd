import Wsmq.Server
import Wsmq.Link.Delivery

/-! A server and its clients.

Every connection the server accepts is a link to a client of its own: the server's end of it is
the state in the connection's task, the rest is the client's and the socket's (`ClientEnd`).
Seen from one connection the whole network is that link (`Reachable.link`), even when the
others' peers are no clients of this library and send what they like. So what the server's
`on_message` is given for a client is what the client's calls said, under its address, once and
in order (`clients_heard`). -/
namespace Wsmq

/-- A client, and how far the two ends of its socket have written and read. -/
structure ClientEnd where
  state : State
  written : Side → Nat
  read : Side → Nat
  asked : Side → Ticket → Option Request

def ClientEnd.init : ClientEnd := ⟨.init, fun _ => 0, fun _ => 0, fun _ _ => none⟩

/-- A server and, by the number of the connection, the bandwidth of each client. -/
structure Network (Addr Context : Type) where
  service : Server.Service Addr Context
  bandwidth : Nat → UInt64

/-- The server, and at the other end of each connection a client. -/
structure NetworkState (Addr Context : Type) where
  server : Server.ServerState Addr Context
  clients : Nat → ClientEnd

inductive NetworkAction (Addr : Type) where
  /-- What is no connection's alone, and the beginning and the end of one. -/
  | server (a : Server.ServerAction Addr)
  /-- Anything the server does on a connection but write and read. -/
  | serve (i : Nat) (a : Action)
  | client (i : Nat) (a : Action)
  | forward (i : Nat) (side : Side)
  | receive (i : Nat) (side : Side) (cancels : ProgressContext → Bool)
  /-- A message from a peer that is no client of this library. -/
  | stranger (i : Nat) (message : WsMessage)

variable {Addr Context : Type}

/-- The server's end of a connection. -/
def Server.Session.state (x : Server.Session Addr Context) : State :=
  match x.phase with
  | .serving state _ | .closed state _ => state
  | _ => .init

namespace NetworkState

def init : NetworkState Addr Context := ⟨.init, fun _ => .init⟩

variable (s : NetworkState Addr Context)

def ends (i : Nat) : Side → State
  | .client => (s.clients i).state
  | .server => s.server.sessions[i]?.elim .init Server.Session.state

/-- The link that a connection is. -/
def link (i : Nat) : LinkState :=
  ⟨s.ends i, (s.clients i).written, (s.clients i).read, (s.clients i).asked⟩

def setClient (i : Nat) (client : ClientEnd) : NetworkState Addr Context :=
  {s with clients := Function.update s.clients i client}

/-- The link moved, but not at the server's end. -/
def setLink (i : Nat) (t : LinkState) : NetworkState Addr Context :=
  s.setClient i ⟨t.ends .client, t.written, t.read, t.asked⟩

end NetworkState

namespace Network
variable (n : Network Addr Context)

def link (i : Nat) : Link where
  bandwidth
    | .client => n.bandwidth i
    | .server => n.service.bandwidth
  protobuf := n.service.protobuf
  snap := n.service.snap

/-- A connection moves as its link does. What concerns the server's end is a step of the server. -/
def step (s : NetworkState Addr Context) : NetworkAction Addr → Option (NetworkState Addr Context)
  | .server a =>
    match a with
    | .session _ (.act _) | .session _ (.receive _) => none
    | a => (Server.step n.service s.server a).map fun server => {s with server := server}
  | .serve i a =>
    (Server.step n.service s.server (.session i (.act a))).map fun server =>
      let client := s.clients i
      {s with server := server}.setClient i
        {client with asked := Function.update client.asked .server (a.asks (client.asked .server))}
  | .client i a => ((n.link i).step (s.link i) (.act .client a)).map (s.setLink i)
  | .forward i side => ((n.link i).step (s.link i) (.forward side)).map (s.setLink i)
  | .receive i .client cancels =>
    ((n.link i).step (s.link i) (.receive .client cancels)).map (s.setLink i)
  | .receive i .server _ =>
    -- Here `on_progress` decides what is canceled.
    let client := s.clients i
    if client.read .server < client.written .client then
      client.state.queue[client.read .server]?.bind fun frame =>
        if n.service.protobuf.Fits frame then
          (Server.step n.service s.server (.session i (.receive
            (.binary (n.service.protobuf.writeToBytes frame))))).map fun server =>
              {s with server := server}.setClient i
                {client with read := Function.update client.read .server (client.read .server + 1)}
        else none
    else none
  | .stranger i message =>
    (Server.step n.service s.server (.session i (.receive message))).map fun server =>
      {s with server := server}

/-- The peer of connection `i` is a client of this library, and `generate_uuid` draws a uuid
that no call of it has had. Of the other peers nothing is asked. -/
def Honest (i : Nat) (s : NetworkState Addr Context) : NetworkAction Addr → Prop
  | .client j a => i = j → FreshUuid (s.clients j).state a
  | .stranger j _ => i ≠ j
  | _ => True

/-- The states of the runs in which connection `i` is to a client. -/
abbrev Reachable (i : Nat) : NetworkState Addr Context → Prop :=
  Runs.Reachable n.step (Honest i) .init

variable {n}
variable {s t : NetworkState Addr Context} {i : Nat}

/-! ### A step of a session -/

section Session
variable {v : Server.Service Addr Context} {x y : Server.Session Addr Context}

/-- Only what is done on the connection moves its state. -/
theorem session_kept {a : Server.SessionAction} (hact : ∀ b, a ≠ .act b)
    (hreceive : ∀ m, a ≠ .receive m) (h : Server.sessionStep v x a = some y) :
    y.state = x.state := by
  obtain ⟨addr, phase, calls⟩ := x
  cases a with
  | tls ok =>
    simp only [Server.sessionStep] at h
    split at h
    · split at h
      · cases h
        cases ok <;> rfl
      · cases h
    · cases h
  | handshake ok =>
    simp only [Server.sessionStep] at h
    split at h
    · split at h
      · cases h
      · cases ok <;> cases h <;> rfl
    · cases ok <;> cases h <;> rfl
    · cases h
  | act b => exact absurd rfl (hact b)
  | receive m => exact absurd rfl (hreceive m)
  | disconnect =>
    simp only [Server.sessionStep] at h
    split at h
    · split at h
      · cases h
        rfl
      · cases h
    · cases h

theorem session_acts {a : Action} (h : Server.sessionStep v x (.act a) = some y) :
    ¬ a.isReceive ∧ Wsmq.step v.endpoint x.state a = some y.state := by
  obtain ⟨addr, phase, calls⟩ := x
  have hact : ¬ a.isReceive ∧ Server.Session.act v ⟨addr, phase, calls⟩ a = some y := by
    cases a with
    | receive m cancels => cases h
    | _ => exact ⟨id, h⟩
  obtain ⟨ha, hstep⟩ := hact
  refine ⟨ha, ?_⟩
  simp only [Server.Session.act] at hstep
  split at hstep
  · obtain ⟨t, ht, rfl⟩ := Option.map_eq_some_iff.mp hstep
    exact ht
  · obtain ⟨t, ht, rfl⟩ := Option.map_eq_some_iff.mp hstep
    exact ht
  · cases hstep

theorem session_receives {m : WsMessage} (h : Server.sessionStep v x (.receive m) = some y) :
    ∃ cancels, Wsmq.step v.endpoint x.state (.receive m cancels) = some y.state := by
  obtain ⟨addr, phase, calls⟩ := x
  simp only [Server.sessionStep] at h
  split at h
  · obtain ⟨t, ht, rfl⟩ := Option.map_eq_some_iff.mp h
    exact ⟨_, ht⟩
  · cases h

/-- A step of one session leaves the others. -/
theorem sessions_set {sessions : List (Server.Session Addr Context)} {j : Nat}
    (hx : sessions[j]? = some x) (i : Nat) :
    (sessions.set j y)[i]?.elim .init Server.Session.state =
      if i = j then y.state else sessions[i]?.elim .init Server.Session.state := by
  obtain ⟨hj, -⟩ := List.getElem?_eq_some_iff.mp hx
  rw [List.getElem?_set]
  by_cases hij : i = j
  · subst hij
    rw [if_pos rfl, if_pos hj, if_pos rfl]
    rfl
  · rw [if_neg (Ne.symm hij), if_neg hij]

end Session

/-! ### One connection of the network -/

theorem ends_server {x : Server.Session Addr Context} (hx : s.server.sessions[i]? = some x) :
    s.ends i .server = x.state := by
  show s.server.sessions[i]?.elim _ _ = _
  rw [hx]
  rfl

theorem setClient_self (client : ClientEnd) : (s.setClient i client).clients i = client :=
  Function.update_self ..

theorem link_setLink {u : LinkState} (hserver : u.ends .server = s.ends i .server) :
    (s.setLink i u).link i = u := by
  have hends : (s.setLink i u).ends i = u.ends := by
    funext side
    cases side with
    | client => exact congrArg ClientEnd.state (setClient_self _)
    | server => exact hserver.symm
  rw [NetworkState.link, hends, NetworkState.setLink, setClient_self]

theorem link_setClient {j : Nat} {client : ClientEnd} (hij : i ≠ j) :
    (s.setClient j client).link i = s.link i := by
  have hclient : (s.setClient j client).clients i = s.clients i := Function.update_of_ne hij _ _
  have hends : (s.setClient j client).ends i = s.ends i := by
    funext side
    cases side with
    | client => exact congrArg ClientEnd.state hclient
    | server => rfl
  rw [NetworkState.link, NetworkState.link, hends, hclient]

theorem link_setServer {server : Server.ServerState Addr Context}
    (hserver : server.sessions[i]?.elim .init Server.Session.state = s.ends i .server) :
    ({s with server := server} : NetworkState Addr Context).link i = s.link i := by
  rw [NetworkState.link, NetworkState.link]
  congr 1
  funext side
  cases side with
  | client => rfl
  | server => exact hserver

/-- What the link of a connection does in a step of the network. -/
def LinkMoves (n : Network Addr Context) (s t : NetworkState Addr Context) (i : Nat) : Prop :=
  t.link i = s.link i ∨
    ∃ b, Link.Fresh (s.link i) b ∧ (n.link i).step (s.link i) b = some (t.link i)

/-- A step of the link at its client's end or in its socket. -/
theorem setLink_moves {j : Nat} {b : LinkAction} (hfresh : i = j → Link.Fresh (s.link j) b)
    (hserver : ∀ u, (n.link j).step (s.link j) b = some u → u.ends .server = s.ends j .server)
    (h : ((n.link j).step (s.link j) b).map (s.setLink j) = some t) : LinkMoves n s t i := by
  obtain ⟨u, hu, rfl⟩ := Option.map_eq_some_iff.mp h
  by_cases hij : i = j
  · subst hij
    refine .inr ⟨b, hfresh rfl, ?_⟩
    rw [link_setLink (hserver u hu)]
    exact hu
  · exact .inl (link_setClient hij)

/-- A step of the server that moves no connection. -/
theorem ends_kept {a : Server.ServerAction Addr} {server : Server.ServerState Addr Context}
    (hact : ∀ i b, a ≠ .session i (.act b)) (hreceive : ∀ i m, a ≠ .session i (.receive m))
    (h : Server.step n.service s.server a = some server) :
    server.sessions[i]?.elim .init Server.Session.state = s.ends i .server := by
  cases a with
  | badAddress | acceptFails =>
    simp only [Server.step] at h
    split at h <;> cases h
    rfl
  | bind ok =>
    simp only [Server.step] at h
    split at h <;> cases h
    cases ok <;> rfl
  | accept addr =>
    simp only [Server.step] at h
    split at h <;> cases h
    show (s.server.sessions ++ [_])[i]?.elim _ _ = s.server.sessions[i]?.elim _ _
    obtain hlt | heq | hgt := Nat.lt_trichotomy i s.server.sessions.length
    · rw [List.getElem?_append_left hlt]
    · rw [heq, List.getElem?_concat_length, List.getElem?_eq_none (Nat.le_refl _)]
      rfl
    · rw [List.getElem?_eq_none (by simpa using hgt), List.getElem?_eq_none (Nat.le_of_lt hgt)]
  | session j b =>
    obtain ⟨x, hx, h⟩ := Option.bind_eq_some_iff.mp h
    obtain ⟨y, hy, rfl⟩ := Option.map_eq_some_iff.mp h
    refine (sessions_set hx i).trans ?_
    split
    · rename_i hij
      subst hij
      rw [session_kept (fun b h => hact i b (congrArg _ h)) (fun m h => hreceive i m (congrArg _ h))
        hy]
      exact (ends_server hx).symm
    · rfl

theorem ends_elsewhere {j : Nat} {c : Server.SessionAction}
    {server : Server.ServerState Addr Context} (hij : i ≠ j)
    (h : Server.step n.service s.server (.session j c) = some server) :
    server.sessions[i]?.elim .init Server.Session.state = s.ends i .server := by
  obtain ⟨x, hx, h⟩ := Option.bind_eq_some_iff.mp h
  obtain ⟨y, -, rfl⟩ := Option.map_eq_some_iff.mp h
  exact (sessions_set hx i).trans (if_neg hij)

/-- A step of the server on one connection, with what the connection's socket makes of it. -/
theorem session_moves {j : Nat} {c : Server.SessionAction} {client : ClientEnd}
    {server : Server.ServerState Addr Context}
    (hserver : Server.step n.service s.server (.session j c) = some server)
    (hstate : client.state = (s.clients j).state)
    (hlink : ∀ x y, s.ends j .server = x.state → Server.sessionStep n.service x c = some y →
      ∃ b, Link.Fresh (s.link j) b ∧ (n.link j).step (s.link j) b =
        some ⟨Function.update (s.ends j) .server y.state, client.written, client.read,
          client.asked⟩) : LinkMoves n s ({s with server := server}.setClient j client) i := by
  by_cases hij : i = j
  · obtain ⟨x, hx, h⟩ := Option.bind_eq_some_iff.mp hserver
    obtain ⟨y, hy, rfl⟩ := Option.map_eq_some_iff.mp h
    subst hij
    obtain ⟨b, hfresh, hstep⟩ := hlink x y (ends_server hx) hy
    refine .inr ⟨b, hfresh, hstep.trans (congrArg some ?_)⟩
    rw [NetworkState.link, setClient_self]
    congr 1
    funext side
    cases side with
    | client =>
      rw [Function.update_of_ne (by decide), NetworkState.ends, NetworkState.ends, setClient_self]
      exact hstate.symm
    | server =>
      rw [Function.update_self]
      exact ((sessions_set hx i).trans (if_pos rfl)).symm
  · exact .inl ((link_setClient hij).trans (link_setServer (ends_elsewhere hij hserver)))

/-- **A step of the network is a step of each of its links, or none.** -/
theorem link_moves {a : NetworkAction Addr} (ha : Honest i s a) (h : n.step s a = some t) :
    LinkMoves n s t i := by
  cases a with
  | server a =>
    simp only [step] at h
    split at h
    · cases h
    · cases h
    · rename_i hact hreceive
      obtain ⟨server, hserver, rfl⟩ := Option.map_eq_some_iff.mp h
      exact .inl (link_setServer (ends_kept hact hreceive hserver))
  | serve j a =>
    obtain ⟨server, hserver, rfl⟩ := Option.map_eq_some_iff.mp h
    refine session_moves hserver (by rfl) fun x y hends hy => ?_
    obtain ⟨hreceive, hstep⟩ := session_acts hy
    rw [← hends] at hstep
    refine ⟨.act .server a, ?_, Link.moves_step (.act hreceive hstep)⟩
    -- Only a client draws a uuid.
    cases a with
    | send c request => cases hstep
    | _ => trivial
  | client j a =>
    refine setLink_moves (b := .act .client a) ha (fun u hu => ?_) h
    cases Link.step_moves hu with
    | act => rfl
  | forward j side =>
    refine setLink_moves (b := .forward side) (fun _ => trivial) (fun u hu => ?_) h
    cases Link.step_moves hu with
    | forward => rfl
  | receive j side cancels =>
    cases side with
    | client =>
      refine setLink_moves (b := .receive .client cancels) (fun _ => trivial) (fun u hu => ?_) h
      cases Link.step_moves hu with
      | receive => rfl
    | server =>
      simp only [step] at h
      split at h
      · rename_i hwritten
        obtain ⟨frame, hframe, h⟩ := Option.bind_eq_some_iff.mp h
        split at h
        · rename_i hfits
          obtain ⟨server, hserver, rfl⟩ := Option.map_eq_some_iff.mp h
          refine session_moves hserver (by rfl) fun x y hends hy => ?_
          obtain ⟨cancels, hstep⟩ := session_receives hy
          rw [← hends] at hstep
          exact ⟨.receive .server cancels, trivial,
            Link.moves_step (.receive hwritten hframe hfits hstep)⟩
        · cases h
      · cases h
  | stranger j message =>
    obtain ⟨server, hserver, rfl⟩ := Option.map_eq_some_iff.mp h
    exact .inl (link_setServer (ends_elsewhere ha hserver))

/-- **Every connection to a client is a link by itself**, whatever comes over the others: what
holds of every run of a link holds of it. -/
theorem Reachable.link (h : n.Reachable i s) : (n.link i).Reachable (s.link i) := by
  have hinit : (NetworkState.init : NetworkState Addr Context).link i = .init := by
    rw [NetworkState.link, LinkState.init]
    congr 1
    funext side
    cases side <;> rfl
  show Runs.Reachable (n.link i).step Link.Fresh .init (s.link i)
  rw [← hinit]
  refine h.seen (fun s : NetworkState Addr Context => s.link i) fun s a t ha hstep => ?_
  exact link_moves ha hstep

/-- The server of a network is a server. -/
theorem Reachable.server (h : n.Reachable i s) :
    Runs.Reachable (Server.step n.service) (fun _ _ => True) .init s.server := by
  refine h.seen (fun s => s.server) fun s a t _ hstep => ?_
  cases a with
  | server a =>
    simp only [step] at hstep
    split at hstep
    · cases hstep
    · cases hstep
    · obtain ⟨server, hserver, rfl⟩ := Option.map_eq_some_iff.mp hstep
      exact .inr ⟨a, trivial, hserver⟩
  | serve j a | stranger j message =>
    obtain ⟨server, hserver, rfl⟩ := Option.map_eq_some_iff.mp hstep
    exact .inr ⟨_, trivial, hserver⟩
  | client j a | forward j side =>
    obtain ⟨u, -, rfl⟩ := Option.map_eq_some_iff.mp hstep
    exact .inl rfl
  | receive j side cancels =>
    cases side with
    | client =>
      obtain ⟨u, -, rfl⟩ := Option.map_eq_some_iff.mp hstep
      exact .inl rfl
    | server =>
      simp only [step] at hstep
      split at hstep
      · obtain ⟨frame, -, hstep⟩ := Option.bind_eq_some_iff.mp hstep
        split at hstep
        · obtain ⟨server, hserver, rfl⟩ := Option.map_eq_some_iff.mp hstep
          exact .inr ⟨_, trivial, hserver⟩
        · cases hstep
      · cases hstep

/-! ### What `on_message` is given -/

/-- The call is one of `on_message`: the address, the uuid and the bytes. -/
def onMessage : Server.Call Addr Context → Option (Addr × Uuid × Bytes)
  | .message addr response _ => some (addr, response.uuid, response.data)
  | _ => none

def onMessages (calls : List (Server.Call Addr Context)) : List (Addr × Uuid × Bytes) :=
  calls.filterMap onMessage

theorem onMessages_append (a b : List (Server.Call Addr Context)) :
    onMessages (a ++ b) = onMessages a ++ onMessages b :=
  List.filterMap_append

section
variable (v : Server.Service Addr Context) (addr : Addr)

theorem invoke_onMessages (made : Context × List (Server.Call Addr Context))
    (callback : Callback) : onMessages (v.invoke addr made callback).2 =
      onMessages made.2 ++ (Receiver.deliveries [callback]).map fun m => (addr, m) := by
  cases callback with
  | onMessage uuid message => exact onMessages_append _ _
  | onCallback pctx =>
    simp only [Server.Service.invoke]
    split
    · exact onMessages_append _ _
    · exact (List.append_nil _).symm
  | onError err =>
    simp only [Server.Service.invoke]
    split
    · exact onMessages_append _ _
    · exact (List.append_nil _).symm
  | onCanceled pctx => exact (List.append_nil _).symm

theorem invokes_onMessages (made : Context × List (Server.Call Addr Context))
    (callbacks : List Callback) : onMessages (callbacks.foldl (v.invoke addr) made).2 =
      onMessages made.2 ++ (Receiver.deliveries callbacks).map fun m => (addr, m) := by
  induction callbacks generalizing made with
  | nil => exact (List.append_nil _).symm
  | cons callback rest ih =>
    rw [List.foldl_cons, ih, invoke_onMessages, List.append_assoc, ← List.map_append,
      ← Receiver.deliveries_append]
    rfl

theorem messages_callbacks (log : List Event) :
    messages log = Receiver.deliveries (Server.callbacksOf log) := by
  induction log with
  | nil => rfl
  | cons ev rest ih =>
    have hone : messages [ev] = Receiver.deliveries (Server.callbacksOf [ev]) := by
      cases ev <;> rfl
    rw [← List.singleton_append, messages_append, Server.callbacksOf_append,
      Receiver.deliveries_append, ih, hone]

variable {v}

/-- **`on_message` is given what the connection delivers**, with the client's address. -/
theorem onMessages_orderly {x : Server.Session Addr Context} (h : Server.Orderly v x) :
    onMessages x.calls = (messages x.state.log).map fun m => (x.addr, m) := by
  have hserved : ∀ {state : State} {context : Context} {calls : List (Server.Call Addr Context)},
      Server.Served v x.addr state context calls →
      onMessages calls = (messages state.log).map fun m => (x.addr, m) := by
    intro state context calls hserved
    have hmade := invokes_onMessages v x.addr (v.connect x.addr)
      (Server.callbacksOf state.log)
    rw [hserved.made, ← messages_callbacks] at hmade
    rw [hmade]
    simp only [Server.Service.connect]
    split <;> rfl
  obtain ⟨addr, phase, calls⟩ := x
  cases phase with
  | accepted | upgraded | tlsFailed =>
    cases (h : calls = [])
    rfl
  | handshakeFailed =>
    cases (h : calls = v.reject)
    show onMessages v.reject = []
    unfold Server.Service.reject
    split <;> rfl
  | serving state context => exact hserved h
  | closed state context =>
    obtain ⟨-, last, before, hbefore, -, hcalls⟩ := h
    have hdisconnect : onMessages (v.disconnect addr last).2 = [] := by
      simp only [Server.Service.disconnect]
      split <;> rfl
    show onMessages calls = _
    rw [show calls = _ from hcalls, onMessages_append, hdisconnect, List.append_nil]
    exact hserved hbefore

end

/-- What the calls of an end of a connection said. -/
def said (s : NetworkState Addr Context) (i : Nat) (side : Side) : List (Uuid × Bytes) :=
  (posts ((s.clients i).asked side) (s.ends i side).log).map spoken

/-- What the users of a connection hear of each other. -/
structure Heard (s : NetworkState Addr Context) (i : Nat) (x : Server.Session Addr Context) :
    Prop where
  in_order : onMessages x.calls <+: (said s i .client).map fun m => (x.addr, m)
  caught_up : (s.clients i).read .server = (s.clients i).state.queue.length →
    onMessages x.calls = (said s i .client).map fun m => (x.addr, m)
  answered : messages (s.clients i).state.log <+: said s i .server
  calls : ∀ side c, PostedOnce ((s.clients i).asked side) c (s.ends i side).log

/-- **A server hears each of its clients**, in any interleaving of any number of connections and
whatever the peers of the others send: what `on_message` is given for a connection to a client
is what the client's calls said, each message once, whole and in order, with the client's
address. -/
theorem clients_heard (hn : (n.link i).Proper) (h : n.Reachable i s)
    {x : Server.Session Addr Context} (hx : s.server.sessions[i]? = some x) : Heard s i x := by
  have hcalls : onMessages x.calls =
      (messages ((s.link i).ends .server).log).map fun m => (x.addr, m) := by
    have horderly := (Server.sessions_orderly h.server).2 x (List.mem_of_getElem? hx)
    rw [show (s.link i).ends .server = x.state from ends_server hx]
    exact onMessages_orderly horderly
  have hserver := Link.delivered_exactly_once hn h.link .server
  have hclient := Link.delivered_exactly_once hn h.link .client
  refine ⟨?_, fun hread => ?_, hclient.in_order, fun side c => ?_⟩
  · rw [hcalls]
    exact hserver.in_order.map _
  · rw [hcalls, hserver.caught_up hread]
    rfl
  · cases side with
    | client => exact hserver.calls c
    | server => exact hclient.calls c

def exampleNetwork : Network Nat Nat := ⟨Server.exampleService, fun _ => 16⟩

theorem exampleNetwork_proper (i : Nat) : (exampleNetwork.link i).Proper where
  protobuf := Protobuf.generated_inverts
  snap := Snap.framed_inverts
  bandwidth
    | .client | .server => (by decide : (16 : UInt64) ≠ 0)

/-- The action draws a uuid, or is a stranger's on the connection. -/
def suspect (i : Nat) : NetworkAction Addr → Bool
  | .client _ (.send _ _) => true
  | .stranger j _ => i = j
  | _ => false

theorem honest_of_not_suspect {a : NetworkAction Addr} (h : suspect i a = false) :
    Honest i s a := by
  cases a with
  | client j a =>
    cases a with
    | send c request => cases h
    | _ => exact fun _ => trivial
  | stranger j message => exact of_decide_eq_false h
  | _ => trivial

def stranger (frame : Frame) : NetworkAction Nat :=
  .stranger 1 (.binary (Protobuf.generated.writeToBytes frame))

/-- A client says something long and is answered. A stranger uses the same uuid. -/
def strangerTalks : List (NetworkAction Nat) :=
  .client 0 (.send exampleCall (.bytes longMessage)) ::
    ([.server (.bind true), .server (.accept 7), .server (.accept 8),
      .server (.session 0 (.handshake true)), .server (.session 1 (.handshake true)),
      stranger (beginFrame .nil 0)] ++
    List.replicate 5 (.client 0 (.push exampleCall)) ++ List.replicate 5 (.forward 0 .client) ++
    List.replicate 3 (.receive 0 .server fun _ => false) ++
    [.stranger 1 (.ping [255]), stranger (oneshotFrame .nil [6]), stranger (endFrame .nil)] ++
    List.replicate 2 (.receive 0 .server fun _ => false) ++
    [.client 0 (.ret exampleCall), .client 0 (.poll exampleCall 0),
      .serve 0 (.reply exampleCall (.bytes [9])), .serve 0 (.push exampleCall),
      .forward 0 .server, .receive 0 .client fun _ => false])

theorem strangerTalks_along :
    Runs.Along exampleNetwork.step (Honest 0) .init strangerTalks := by
  refine ⟨fun _ d _ => rfl, fun s _ => Runs.along_of_forall fun a ha s => ?_⟩
  have hall : strangerTalks.tail.all (fun a => !suspect 0 a) = true := rfl
  exact honest_of_not_suspect (by simpa using List.all_eq_true.mp hall a ha)

theorem clients_heard_stranger : ∃ (s : NetworkState Nat Nat) (x : Server.Session Nat Nat),
    exampleNetwork.Reachable 0 s ∧ onMessages x.calls = [(7, .nil, longMessage)] ∧
      messages (s.clients 0).state.log = [(.nil, [9])] ∧ Heard s 0 x := by
  have hview : (Runs.run exampleNetwork.step .init strangerTalks).map (fun s =>
      decide (s.server.sessions.map (fun x => onMessages x.calls) =
          [[(7, .nil, longMessage)], [(8, .nil, [6]), (8, .nil, [])]] ∧
        messages (s.clients 0).state.log = [(.nil, [9])])) = some true := by
    decide +kernel
  obtain ⟨s, hrun, hview⟩ := Option.map_eq_some_iff.mp hview
  have hs : exampleNetwork.Reachable 0 s := Runs.Reachable.init.along strangerTalks_along hrun
  obtain ⟨hheard, hanswered⟩ := of_decide_eq_true hview
  obtain ⟨x, rest, hsessions, hx, -⟩ := List.map_eq_cons_iff.mp hheard
  exact ⟨s, x, hs, hx, hanswered,
    clients_heard (exampleNetwork_proper 0) hs (by rw [hsessions]; rfl)⟩

end Network
end Wsmq
