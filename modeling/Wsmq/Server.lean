import Wsmq.Connection.Control
import Wsmq.Connection.Panics

/-! The server: `run_with_config2`.

It binds, accepts, and for every connection spawns a task of its own: the TLS handshake if
there is a key, the WebSocket handshake, `on_connect`, the connection of `Connection.lean` until
its `select` is over, `on_disconnect`. The user's value for the connection is made by
`on_connect` and handed from closure to closure.

`sessions_orderly` says what the user of a server sees of a connection, in any run with any
number of others: nothing before the handshake, then `on_connect`, then the callbacks the
connection records, each with the value the one before left, nothing more once a cancellation
is heeded, and `on_disconnect` last, when the queue no longer takes frames. -/
namespace Wsmq
namespace Server

/-- `Config`. A closure that is given `&mut Context` returns what it leaves there, `on_progress`
also whether it called `cancel`. Of the key only whether there is one matters here. -/
structure Config (Addr Context : Type) where
  bandwidth : UInt64
  key : Bool
  onStarted : Bool
  onConnect : Option (Addr → Context)
  onDisconnect : Option (Addr → Context → Context)
  onProgress : Option (ProgressContext → Context → Context × Bool)
  onError : Option (DispatchError → Context → Context)

/-- What `run` and `run_with_config` are given. -/
structure Service (Addr Context : Type) where
  config : Option (Config Addr Context)
  onMessage : Addr → Response → Context → Context
  /-- `mem::zeroed()` -/
  zeroed : Context
  protobuf : Protobuf
  snap : Snap

/-- A call of one of the user's closures, with what it is given. -/
inductive Call (Addr Context : Type) where
  | started
  | connect (addr : Addr)
  | message (addr : Addr) (response : Response) (context : Context)
  | progress (pctx : ProgressContext) (context : Context)
  | error (err : DispatchError) (context : Context)
  /-- `on_error` without a context: the WebSocket handshake failed. -/
  | rejected
  | disconnect (addr : Addr) (context : Context)
deriving DecidableEq

variable {Addr Context : Type}

namespace Service
variable (v : Service Addr Context)

def bandwidth : UInt64 :=
  match v.config with
  | some config => config.bandwidth
  | none => 1024 * 1024 * 16

def endpoint : Endpoint := ⟨.server, v.bandwidth, v.protobuf, v.snap⟩

def key : Bool :=
  match v.config with
  | some config => config.key
  | none => false

def started : List (Call Addr Context) :=
  match v.config with
  | some config => if config.onStarted then [.started] else []
  | none => []

/-- The value of a new connection, and the calls made for it. -/
def connect (addr : Addr) : Context × List (Call Addr Context) :=
  match v.config.bind Config.onConnect with
  | some onConnect => (onConnect addr, [.connect addr])
  | none => (v.zeroed, [])

/-- The call for a WebSocket handshake that failed. -/
def reject : List (Call Addr Context) :=
  match v.config.bind Config.onError with
  | some _ => [.rejected]
  | none => []

def disconnect (addr : Addr) (context : Context) : Context × List (Call Addr Context) :=
  match v.config.bind Config.onDisconnect with
  | some onDisconnect => (onDisconnect addr context, [.disconnect addr context])
  | none => (context, [])

/-- What `on_progress` cancels when it is called with the value. -/
def cancels (context : Context) (pctx : ProgressContext) : Bool :=
  match v.config.bind Config.onProgress with
  | some onProgress => (onProgress pctx context).2
  | none => false

/-- The closures of the connection, after the calls made so far. -/
def invoke (addr : Addr) (made : Context × List (Call Addr Context)) :
    Callback → Context × List (Call Addr Context)
  | .onMessage uuid message =>
    (v.onMessage addr ⟨uuid, message⟩ made.1, made.2 ++ [.message addr ⟨uuid, message⟩ made.1])
  | .onCallback pctx =>
    match v.config.bind Config.onProgress with
    | some onProgress =>
      -- The log has the context after the call, which may have canceled it.
      let pctx := {pctx with canceled := false}
      ((onProgress pctx made.1).1, made.2 ++ [.progress pctx made.1])
    | none => made
  | .onError err =>
    match v.config.bind Config.onError with
    | some onError => (onError err made.1, made.2 ++ [.error err made.1])
    | none => made
  -- `canceled = true`
  | .onCanceled _ => made

end Service

/-- Where the task of a connection is. The value is there from `on_connect` on. -/
inductive Phase (Context : Type) where
  | accepted
  | upgraded
  | tlsFailed
  | handshakeFailed
  | serving (state : State) (context : Context)
  | closed (state : State) (context : Context)

/-- A connection that was accepted, and the calls made for it so far. -/
structure Session (Addr Context : Type) where
  addr : Addr
  phase : Phase Context
  calls : List (Call Addr Context)

/-- What happens on a connection. `tls` and `handshake` say how the handshakes come out. -/
inductive SessionAction where
  | tls (ok : Bool)
  | handshake (ok : Bool)
  /-- Anything but a received message. A `Response` lets the user reply after the end. -/
  | act (a : Action)
  | receive (message : WsMessage)
  | disconnect

inductive Status where
  | starting
  | listening
  /-- `run_with_config2` has returned, with a result. -/
  | returned (ok : Bool)
deriving DecidableEq

/-- The connections by the order they were accepted in, and the calls made before any of them. -/
structure ServerState (Addr Context : Type) where
  status : Status
  sessions : List (Session Addr Context)
  calls : List (Call Addr Context)

def ServerState.init : ServerState Addr Context := ⟨.starting, [], []⟩

inductive ServerAction (Addr : Type) where
  /-- The address is no `SocketAddr`. -/
  | badAddress
  | bind (ok : Bool)
  | accept (addr : Addr)
  | acceptFails
  | session (i : Nat) (a : SessionAction)

variable (v : Service Addr Context)

/-- The state of a connection moves, the user sees nothing of it. -/
def Session.act (x : Session Addr Context) (a : Action) : Option (Session Addr Context) :=
  match x.phase with
  | .serving state context =>
    (Wsmq.step v.endpoint state a).map fun t => {x with phase := .serving t context}
  | .closed state context =>
    (Wsmq.step v.endpoint state a).map fun t => {x with phase := .closed t context}
  | _ => none

/-- A step of the task of a connection. -/
def sessionStep (x : Session Addr Context) : SessionAction → Option (Session Addr Context)
  | .tls ok =>
    match x.phase with
    | .accepted =>
      -- A failed TLS handshake is told to nobody.
      if v.key then some {x with phase := if ok then .upgraded else .tlsFailed} else none
    | _ => none
  | .handshake ok =>
    let done : Session Addr Context :=
      if ok then {x with
        phase := .serving .init (v.connect x.addr).1
        calls := x.calls ++ (v.connect x.addr).2}
      else {x with phase := .handshakeFailed, calls := x.calls ++ v.reject}
    match x.phase with
    | .accepted => if v.key then none else some done
    | .upgraded => some done
    | _ => none
  | .act a =>
    match a with
    | .receive _ _ => none
    | a => x.act v a
  | .receive m =>
    match x.phase with
    | .serving state context =>
      -- `on_progress` is the first closure a message calls, if it calls any.
      let callbacks := (messageDispatch v.protobuf v.snap (v.cancels context) state.contexts
        m.intoData).2
      (Wsmq.step v.endpoint state (.receive m (v.cancels context))).map fun t =>
        let made := callbacks.foldl (v.invoke x.addr) (context, x.calls)
        {x with phase := .serving t made.1, calls := made.2}
    | _ => none
  | .disconnect =>
    match x.phase with
    | .serving state context =>
      -- The futures of the `select` are dropped, the queue's receiver with them.
      if state.task = .ended then
        some {x with
          phase := .closed state (v.disconnect x.addr context).1
          calls := x.calls ++ (v.disconnect x.addr context).2}
      else none
    | _ => none

/-- A step of the server, or of one of its connections. -/
def step (s : ServerState Addr Context) : ServerAction Addr → Option (ServerState Addr Context)
  | .badAddress =>
    if s.status = .starting then some {s with status := .returned false} else none
  | .bind ok =>
    if s.status = .starting then
      some (if ok then {s with status := .listening, calls := s.calls ++ v.started}
        else {s with status := .returned false})
    else none
  | .accept addr =>
    if s.status = .listening then some {s with sessions := s.sessions ++ [⟨addr, .accepted, []⟩]}
    else none
  | .acceptFails => if s.status = .listening then some {s with status := .returned true} else none
  | .session i a =>
    s.sessions[i]?.bind fun x =>
      (sessionStep v x a).map fun y => {s with sessions := s.sessions.set i y}

/-! ### The callbacks a connection records -/

def callbacksOf (log : List Event) : List Callback := log.filterMap Event.callback

theorem callbacksOf_append (a b : List Event) :
    callbacksOf (a ++ b) = callbacksOf a ++ callbacksOf b :=
  List.filterMap_append

variable {e : Endpoint} {s t : State}

/-- On the server every callback is recorded. -/
theorem handle_callback (hside : e.side = .server) {callback : Callback}
    (h : handle e s callback = some t) : callbacksOf t.log = callbacksOf s.log ++ [callback] := by
  have hone : ∃ ev, t.log = s.log ++ [ev] ∧ ev.callback = some callback := by
    cases callback with
    | onCanceled pctx =>
      rw [handle, hside] at h
      cases h
      exact ⟨_, rfl, rfl⟩
    | _ => exact handle_recorded (fun _ h => by cases h) h
  obtain ⟨ev, hlog, hev⟩ := hone
  rw [hlog, callbacksOf_append]
  exact congrArg _ (List.filterMap_cons_some hev)

theorem receive_callbacks (hside : e.side = .server) {m : WsMessage}
    {cancels : ProgressContext → Bool} (h : Wsmq.step e s (.receive m cancels) = some t) :
    callbacksOf t.log = callbacksOf s.log ++
      (messageDispatch e.protobuf e.snap cancels s.contexts m.intoData).2 := by
  have hall : ∀ {callbacks : List Callback} {s t : State},
      callbacks.foldlM (handle e) s = some t →
      callbacksOf t.log = callbacksOf s.log ++ callbacks := by
    intro callbacks
    induction callbacks with
    | nil =>
      intro s t h
      cases h
      exact (List.append_nil _).symm
    | cons callback rest ih =>
      intro s t h
      rw [List.foldlM_cons] at h
      obtain ⟨between, hfirst, hrest⟩ := Option.bind_eq_some_iff.mp h
      rw [ih hrest, handle_callback hside hfirst, List.append_assoc]
      rfl
  simp only [Wsmq.step] at h
  split at h
  · rw [hall h, State.record_log, callbacksOf_append]
    congr 1
    exact List.append_nil _
  · cases h

/-- A string is one step of a transfer, or it reports progress at END only. -/
theorem dispatch_progress (P : Protobuf) (S : Snap) (cancels : ProgressContext → Bool)
    (contexts : Contexts) (data : Bytes) :
    (∃ method uuid total current, method ≠ .END ∧
      (messageDispatch P S cancels contexts data).2 =
        progress cancels (.new method uuid total current)) ∨
      ∀ pctx, .onCallback pctx ∈ (messageDispatch P S cancels contexts data).2 →
        pctx.method = .END := by
  rw [dispatch_eq]
  split
  · exact .inr fun pctx hmem => absurd hmem (no_progress_malformed data pctx)
  · rename_i uuid frame _
    cases frame with
    | oneshot m =>
      refine .inr fun pctx hmem => ?_
      cases List.mem_singleton.mp hmem
    | begin m => exact .inl ⟨_, _, _, _, by decide, rfl⟩
    | process m =>
      dsimp only [MessageContext.callbacks]
      split
      · exact .inr fun pctx hmem => absurd hmem List.not_mem_nil
      · exact .inl ⟨_, _, _, _, by decide, rfl⟩
    | «end» m =>
      refine .inr fun pctx hmem => ?_
      obtain ⟨c, -, -, -, rfl⟩ := onCallback_end (m := m) hmem
      unfold ProgressContext.afterCallback
      split <;> rfl

/-! ### The closures of a connection -/

variable {v}
variable {x y : Session Addr Context} {addr : Addr} {state : State} {context : Context}
variable {calls : List (Call Addr Context)}

/-- A closure is called after those called before it, `on_progress` for a progress. -/
theorem invoke_calls (v : Service Addr Context) (addr : Addr)
    (made : Context × List (Call Addr Context)) (callback : Callback) :
    ∃ new, (v.invoke addr made callback).2 = made.2 ++ new ∧
      ∀ pctx context, .progress pctx context ∈ new →
        new = [.progress pctx context] ∧ context = made.1 ∧
          ∃ pctx', callback = .onCallback pctx' ∧ pctx = {pctx' with canceled := false} := by
  cases callback with
  | onMessage uuid message =>
    refine ⟨_, rfl, fun pctx context hmem => ?_⟩
    cases List.mem_singleton.mp hmem
  | onCallback pctx' =>
    simp only [Service.invoke]
    split
    · refine ⟨_, rfl, fun pctx context hmem => ?_⟩
      cases List.mem_singleton.mp hmem
      exact ⟨rfl, rfl, _, rfl, rfl⟩
    · exact ⟨[], (List.append_nil _).symm, fun pctx context hmem => by cases hmem⟩
  | onError err =>
    simp only [Service.invoke]
    split
    · refine ⟨_, rfl, fun pctx context hmem => ?_⟩
      cases List.mem_singleton.mp hmem
    · exact ⟨[], (List.append_nil _).symm, fun pctx context hmem => by cases hmem⟩
  | onCanceled pctx => exact ⟨[], (List.append_nil _).symm, fun pctx context hmem => by cases hmem⟩

theorem invokes_calls (v : Service Addr Context) (addr : Addr)
    (made : Context × List (Call Addr Context)) (callbacks : List Callback) :
    ∃ new, (callbacks.foldl (v.invoke addr) made).2 = made.2 ++ new ∧
      ∀ pctx context, .progress pctx context ∈ new →
        ∃ pctx', .onCallback pctx' ∈ callbacks ∧ pctx = {pctx' with canceled := false} := by
  induction callbacks generalizing made with
  | nil => exact ⟨[], (List.append_nil _).symm, fun pctx context hmem => by cases hmem⟩
  | cons callback rest ih =>
    obtain ⟨first, hfirst, hprogress⟩ := invoke_calls v addr made callback
    obtain ⟨new, hnew, hrest⟩ := ih (v.invoke addr made callback)
    refine ⟨first ++ new, ?_, fun pctx context hmem => ?_⟩
    · rw [List.foldl_cons, hnew, hfirst, List.append_assoc]
    · obtain hmem | hmem := List.mem_append.mp hmem
      · obtain ⟨-, -, pctx', rfl, hpctx⟩ := hprogress pctx context hmem
        exact ⟨pctx', List.mem_cons_self .., hpctx⟩
      · obtain ⟨pctx', hmem', hpctx⟩ := hrest pctx context hmem
        exact ⟨pctx', List.mem_cons_of_mem _ hmem', hpctx⟩

/-! ### One connection -/

variable (v) in
/-- A cancellation, but for one at END, is the last call and stops the reading. -/
def Heeded (state : State) (calls : List (Call Addr Context)) : Prop :=
  ∀ a pctx context b, calls = a ++ .progress pctx context :: b → pctx.method ≠ .END →
    v.cancels context pctx = true → b = [] ∧ state.task ≠ .running

variable (v) in
/-- The connection runs as if it were alone, and the closures are called as it says. -/
structure Served (addr : Addr) (state : State) (context : Context)
    (calls : List (Call Addr Context)) : Prop where
  connection : Runs.Reachable (Wsmq.step v.endpoint) (fun _ _ => True) .init state
  made : (callbacksOf state.log).foldl (v.invoke addr) (v.connect addr) = (context, calls)
  heeded : Heeded v state calls

variable (v) in
/-- What the user of the server was told of a connection, by where its task is. -/
def Orderly (x : Session Addr Context) : Prop :=
  match x.phase with
  | .accepted | .upgraded | .tlsFailed => x.calls = []
  | .handshakeFailed => x.calls = v.reject
  | .serving state context => Served v x.addr state context x.calls
  | .closed state context => state.task = .ended ∧ ∃ last calls,
      Served v x.addr state last calls ∧ context = (v.disconnect x.addr last).1 ∧
        x.calls = calls ++ (v.disconnect x.addr last).2

theorem served_init : Served v addr .init (v.connect addr).1 (v.connect addr).2 := by
  refine ⟨.init, rfl, fun a pctx context b hcalls => ?_⟩
  simp only [Service.connect] at hcalls
  split at hcalls <;> cases a <;> simp at hcalls

/-- Whatever is not a received message goes unseen. -/
theorem Served.act {a : Action} {t : State} (h : Served v addr state context calls)
    (ha : ¬ a.isReceive) (hstep : Wsmq.step v.endpoint state a = some t) :
    Served v addr t context calls ∧ (state.task = .ended → t.task = .ended) := by
  obtain ⟨ev, hev⟩ := step_event hstep ha
  refine ⟨⟨h.connection.step trivial hstep, ?_, fun b pctx last rest hcalls hmethod hcancels => ?_⟩,
    fun hended => (hev.closed (c := exampleCall) hended).1⟩
  · rw [hev.log, callbacksOf_append, callbacksOf, callbacksOf,
      List.filterMap_cons_none (hev.quiet ha).1, List.filterMap_nil, List.append_nil]
    exact h.made
  · obtain ⟨hlast, hstopped⟩ := h.heeded b pctx last rest hcalls hmethod hcancels
    exact ⟨hlast, fun hrunning => hstopped (hev.still_running hrunning)⟩

/-- While the connection reads, nothing was cancelled, but at END. -/
theorem Heeded.uncanceled (h : Heeded v state calls) (htask : state.task = .running)
    {pctx : ProgressContext} {last : Context} (hmem : .progress pctx last ∈ calls)
    (hmethod : pctx.method ≠ .END) : v.cancels last pctx ≠ true := by
  intro hcancels
  obtain ⟨a, b, hcalls⟩ := List.append_of_mem hmem
  exact (h a pctx last b hcalls hmethod hcancels).2 htask

theorem Heeded.append {new : List (Call Addr Context)} {t : State} (h : Heeded v state calls)
    (htask : state.task = .running)
    (hnew : ∀ a pctx last b, new = a ++ .progress pctx last :: b → pctx.method ≠ .END →
      v.cancels last pctx = true → b = [] ∧ t.task ≠ .running) : Heeded v t (calls ++ new) := by
  intro a pctx last b hcalls hmethod hcancels
  obtain ⟨n, rfl, hsplit⟩ | ⟨tail, rfl, htail⟩ := List.append_eq_append_iff.mp hcalls
  · exact hnew n pctx last b hsplit hmethod hcancels
  · cases tail with
    | nil => exact hnew [] pctx last b htail.symm hmethod hcancels
    | cons call tail =>
      obtain ⟨rfl, -⟩ := List.cons.inj htail
      exact absurd hcancels (h.uncanceled htask (by simp) hmethod)

theorem Served.receive {m : WsMessage} {t : State} (h : Served v addr state context calls)
    (hstep : Wsmq.step v.endpoint state (.receive m (v.cancels context)) = some t) :
    let made := (messageDispatch v.protobuf v.snap (v.cancels context) state.contexts
      m.intoData).2.foldl (v.invoke addr) (context, calls)
    Served v addr t made.1 made.2 := by
  intro made
  obtain ⟨htask, -, hcanceled⟩ := receive_events hstep
  refine ⟨h.connection.step trivial hstep, ?_, ?_⟩
  · rw [receive_callbacks rfl hstep, List.foldl_append, h.made]
    rfl
  · obtain ⟨method, uuid, total, current, -, hprogress⟩ | hend :=
      dispatch_progress v.protobuf v.snap (v.cancels context) state.contexts m.intoData
    · -- one step of a transfer
      have hmade : made = v.invoke addr (context, calls) (.onCallback
          (.afterCallback (v.cancels context) (.new method uuid total current))) := by
        show List.foldl _ _ _ = _
        rw [hprogress, progress_eq, List.foldl_cons]
        split <;> rfl
      obtain ⟨new, hnew, hcall⟩ := invoke_calls v addr (context, calls)
        (.onCallback (.afterCallback (v.cancels context) (.new method uuid total current)))
      rw [hmade, hnew]
      refine h.heeded.append htask fun a pctx last b hsplit _ hcancels => ?_
      obtain ⟨hone, hlast, pctx', hpctx', hpctx⟩ := hcall pctx last (by simp [hsplit])
      cases hpctx'
      have hsame : pctx = .new method uuid total current := by
        rw [hpctx]
        unfold ProgressContext.afterCallback
        split <;> rfl
      refine ⟨?_, hcanceled rfl (.afterCallback (v.cancels context)
        (.new method uuid total current)) ?_⟩
      · rw [hone] at hsplit
        cases a with
        | nil => exact (List.cons.inj hsplit).2.symm
        | cons call a => simp at hsplit
      · show _ ∈ (messageDispatch v.protobuf v.snap (v.cancels context) _ _).2
        rw [hprogress]
        refine mem_progress.mpr (.inr ⟨?_, rfl⟩)
        rw [afterCallback_canceled, ← hsame]
        rw [hlast] at hcancels
        exact hcancels
    · obtain ⟨new, hnew, hcall⟩ := invokes_calls v addr (context, calls)
        (messageDispatch v.protobuf v.snap (v.cancels context) state.contexts m.intoData).2
      show Heeded v t made.2
      rw [hnew]
      refine h.heeded.append htask fun a pctx last b hsplit hmethod _ => ?_
      obtain ⟨pctx', hmem, rfl⟩ := hcall pctx last (by simp [hsplit])
      exact absurd (hend pctx' hmem) hmethod

theorem orderly_step {a : SessionAction} (h : Orderly v x) (hstep : sessionStep v x a = some y) :
    Orderly v y := by
  obtain ⟨addr, phase, calls⟩ := x
  cases a with
  | tls ok =>
    simp only [sessionStep] at hstep
    split at hstep
    · split at hstep
      · cases hstep
        cases ok <;> exact h
      · cases hstep
    · cases hstep
  | handshake ok =>
    have hdone : calls = [] → ∀ {z : Session Addr Context}, z = (if ok then
        ⟨addr, .serving .init (v.connect addr).1, calls ++ (v.connect addr).2⟩
        else ⟨addr, .handshakeFailed, calls ++ v.reject⟩) → Orderly v z := by
      rintro rfl z rfl
      split
      · exact served_init
      · exact (rfl : v.reject = v.reject)
    simp only [sessionStep] at hstep
    split at hstep
    · split at hstep
      · cases hstep
      · exact hdone h (Option.some.inj hstep).symm
    · exact hdone h (Option.some.inj hstep).symm
    · cases hstep
  | act a =>
    have hact : ¬ a.isReceive ∧ Session.act v ⟨addr, phase, calls⟩ a = some y := by
      simp only [sessionStep] at hstep
      split at hstep
      · cases hstep
      · rename_i hreceive
        refine ⟨fun ha => ?_, hstep⟩
        cases a with
        | receive m cancels => exact hreceive m cancels rfl
        | _ => exact ha
    obtain ⟨hreceive, hstep⟩ := hact
    simp only [Session.act] at hstep
    split at hstep
    · rename_i state context
      obtain ⟨t, ht, rfl⟩ := Option.map_eq_some_iff.mp hstep
      exact (Served.act h hreceive ht).1
    · rename_i state context
      obtain ⟨t, ht, rfl⟩ := Option.map_eq_some_iff.mp hstep
      obtain ⟨hended, last, before, hserved, hcontext, hcalls⟩ := h
      obtain ⟨hserved', hended'⟩ := hserved.act hreceive ht
      exact ⟨hended' hended, last, before, hserved', hcontext, hcalls⟩
    · cases hstep
  | receive m =>
    simp only [sessionStep] at hstep
    split at hstep
    · rename_i state context
      obtain ⟨t, ht, rfl⟩ := Option.map_eq_some_iff.mp hstep
      exact Served.receive h ht
    · cases hstep
  | disconnect =>
    simp only [sessionStep] at hstep
    split at hstep
    · rename_i state context
      split at hstep
      · rename_i hended
        cases hstep
        exact ⟨hended, context, calls, h, rfl, rfl⟩
      · cases hstep
    · cases hstep

/-! ### The server -/

variable (v) in
/-- `on_started` is called once, before any connection. -/
structure Accepting (s : ServerState Addr Context) : Prop where
  starting : s.status = .starting → s.calls = [] ∧ s.sessions = []
  listening : s.status = .listening → s.calls = v.started
  returned : s.status = .returned true ∨ s.sessions ≠ [] → s.calls = v.started

variable {s t : ServerState Addr Context}

theorem accepting_step {a : ServerAction Addr} (h : Accepting v s) (hstep : step v s a = some t) :
    Accepting v t := by
  cases a with
  | badAddress =>
    simp only [step] at hstep
    split at hstep
    · rename_i hstatus
      cases hstep
      refine ⟨nofun, nofun, fun hor => ?_⟩
      obtain heq | hne := hor
      · cases heq
      · exact absurd (h.starting hstatus).2 hne
    · cases hstep
  | bind ok =>
    simp only [step] at hstep
    split at hstep
    · rename_i hstatus
      cases hstep
      cases ok
      · refine ⟨nofun, nofun, fun hor => ?_⟩
        obtain heq | hne := hor
        · cases heq
        · exact absurd (h.starting hstatus).2 hne
      · have hcalls : s.calls ++ v.started = v.started := by
          rw [(h.starting hstatus).1, List.nil_append]
        exact ⟨nofun, fun _ => hcalls, fun _ => hcalls⟩
    · cases hstep
  | accept addr =>
    simp only [step] at hstep
    split at hstep
    · rename_i hstatus
      cases hstep
      exact ⟨fun hstarting => absurd (hstatus.symm.trans hstarting) (by decide),
        fun _ => h.listening hstatus, fun _ => h.listening hstatus⟩
    · cases hstep
  | acceptFails =>
    simp only [step] at hstep
    split at hstep
    · rename_i hstatus
      cases hstep
      exact ⟨nofun, nofun, fun _ => h.listening hstatus⟩
    · cases hstep
  | session i a =>
    obtain ⟨x, hx, hy⟩ := Option.bind_eq_some_iff.mp hstep
    obtain ⟨y, -, rfl⟩ := Option.map_eq_some_iff.mp hy
    have hne : s.sessions ≠ [] := by
      rintro hnil
      rw [hnil] at hx
      cases hx
    exact ⟨fun hstarting => absurd (h.starting hstarting).2 hne, h.listening,
      fun _ => h.returned (.inr hne)⟩

/-- **What the user of a server is told**, in every run with any number of connections:
`on_started` once and before all else; of each connection what it does by itself. -/
theorem sessions_orderly (h : Runs.Reachable (step v) (fun _ _ => True) .init s) :
    Accepting v s ∧ ∀ x ∈ s.sessions, Orderly v x := by
  apply h.invariant
  · exact ⟨⟨fun _ => ⟨rfl, rfl⟩, nofun, fun hor => by simp [ServerState.init] at hor⟩,
      fun x hx => absurd hx List.not_mem_nil⟩
  · intro s a t _ ⟨haccepting, horderly⟩ _ hstep
    refine ⟨accepting_step haccepting hstep, ?_⟩
    cases a with
    | badAddress | acceptFails =>
      simp only [step] at hstep
      split at hstep <;> cases hstep
      exact horderly
    | bind ok =>
      simp only [step] at hstep
      split at hstep <;> cases hstep
      cases ok <;> exact horderly
    | accept addr =>
      simp only [step] at hstep
      split at hstep
      · cases hstep
        intro x hx
        obtain hx | hx := List.mem_append.mp hx
        · exact horderly x hx
        · cases List.mem_singleton.mp hx
          exact rfl
      · cases hstep
    | session i a =>
      obtain ⟨x, hx, hy⟩ := Option.bind_eq_some_iff.mp hstep
      obtain ⟨y, hsession, rfl⟩ := Option.map_eq_some_iff.mp hy
      intro z hz
      obtain hz | rfl := List.mem_or_eq_of_mem_set hz
      · exact horderly z hz
      · exact orderly_step (horderly x (List.mem_of_getElem? hx)) hsession

/-- Counts its messages, and cancels a transfer after two of them. -/
def exampleService : Service Nat Nat where
  config := some {
    bandwidth := 16
    key := false
    onStarted := true
    onConnect := some fun _ => 0
    onDisconnect := some fun _ _ => 0
    onProgress := some fun _ context => (context, decide (2 ≤ context))
    onError := some fun _ context => context }
  onMessage _ _ context := context + 1
  zeroed := 0
  protobuf := .generated
  snap := .framed

def hello (message : Bytes) : SessionAction :=
  .receive (.binary (Protobuf.generated.writeToBytes (oneshotFrame .nil message)))

/-- Two connections at once, and one whose handshake fails. The second cancels a transfer. -/
def threeVisits : List (ServerAction Nat) :=
  [.bind true, .accept 7, .accept 8, .session 0 (.handshake true), .session 1 (.handshake true),
    .session 1 (hello [1]), .session 0 (hello [5]), .accept 9, .session 1 (hello [2]),
    .session 2 (.handshake false),
    .session 1 (.receive (.binary (Protobuf.generated.writeToBytes (beginFrame .nil 0)))),
    .session 0 (.act .select), .session 1 (.act .dropReceiver), .session 0 (.act .dropReceiver),
    .session 0 .disconnect, .session 1 .disconnect, .acceptFails]

def visitCalls : List (List (Call Nat Nat)) := [
  [.connect 7, .message 7 ⟨.nil, [5]⟩ 0, .disconnect 7 1],
  [.connect 8, .message 8 ⟨.nil, [1]⟩ 0, .message 8 ⟨.nil, [2]⟩ 1,
    .progress (.new .BEGIN .nil 0 0) 2, .disconnect 8 2],
  [.rejected]]

theorem sessions_orderly_visits : ∃ s : ServerState Nat Nat,
    s.sessions.map (fun x => x.calls) = visitCalls ∧
    Accepting exampleService s ∧ ∀ x ∈ s.sessions, Orderly exampleService x := by
  have hview : (Runs.run (step exampleService) .init threeVisits).map
      (fun s => s.sessions.map fun x => x.calls) = some visitCalls := by
    decide +kernel
  obtain ⟨s, hs, hcalls⟩ := Option.map_eq_some_iff.mp hview
  exact ⟨s, hcalls, sessions_orderly (Runs.Reachable.init.run (fun _ _ _ => trivial) hs)⟩

end Server
end Wsmq
