import Wsmq.Connection.Control
import Wsmq.Sender.FrameSize

/-! The client: `connect_with_config2` after the handshake, and the `Client` it returns.

The task reads and writes until its `select` is over, tells `on_error` if that ended with an
error, and clears the table. `close` and the drop of the `Client` ask it to stop, which it does
where it waits next. `told_in_order` says what the user's closures are told in any run: what the
connection records, in order, and after it at most once the error of the connection itself, of
which a client that was stopped is told nothing. -/
namespace Wsmq
namespace Client

/-- `Config`, as far as the task reads it: which closures there are. -/
structure Config where
  bandwidth : UInt64
  onError : Bool
  onProgress : Bool

/-- What `connect` and `connect_with_config` are given, and the libraries they use. -/
structure Connector where
  config : Option Config
  protobuf : Protobuf
  snap : Snap

namespace Connector
variable (v : Connector)

/-- `DEFAULT_BANDWIDTH` goes with no configuration. -/
def bandwidth : UInt64 :=
  match v.config with
  | some config => config.bandwidth
  | none => defaultBandwidth

/-- The client's end of the connection. -/
def endpoint : Endpoint := ⟨.client, v.bandwidth, v.protobuf, v.snap⟩

def onError : Bool :=
  match v.config with
  | some config => config.onError
  | none => false

def onProgress : Bool :=
  match v.config with
  | some config => config.onProgress
  | none => false

end Connector

/-- A call of one of the user's closures, with what it is given. -/
inductive Call where
  | progress (pctx : ProgressContext)
  | error (err : DispatchError)
  | mutexError
  /-- The error that the `select` ended with. -/
  | connectionError
deriving DecidableEq

/-- A client after the handshake: its end of the connection, and what its user was told. -/
structure Connected where
  state : State
  calls : List Call
  /-- There is a `Client`. -/
  held : Bool
  /-- The task was asked to stop. -/
  aborting : Bool

def Connected.init : Connected := ⟨.init, [], true, false⟩

/-- What can happen to it. `close` and `drop` only ask the task to stop; that it does is `abort`. -/
inductive ConnectedAction where
  | send (c : Ticket) (request : Request)
  /-- What needs no `Client`: replies, futures, and the task after its `select`. -/
  | act (a : Action)
  | receive (message : WsMessage) (cancels : ProgressContext → Bool)
  | select (failed : Bool)
  | close
  | drop
  | abort

variable (v : Connector)

/-- The closures that a callback calls. -/
def called (lock : Lock) : Callback → List Call
  | .onMessage _ _ => if lock = .poisoned ∧ v.onError then [.mutexError] else []
  | .onCallback pctx =>
    -- The log has the context after the call, which may have canceled it.
    if v.onProgress then [.progress {pctx with canceled := false}] else []
  | .onError err => if v.onError then [.error err] else []
  | .onCanceled _ => []

/-- The connection moves as its own `step` says, and the closures are called on the way. -/
def step (x : Connected) : ConnectedAction → Option Connected
  | .send c request =>
    if x.held then (Wsmq.step v.endpoint x.state (.send c request)).map fun t => {x with state := t}
    else none
  | .act a =>
    match a with
    | .send _ _ | .receive _ _ | .select | .abort => none
    | a => (Wsmq.step v.endpoint x.state a).map fun t => {x with state := t}
  | .receive m cancels =>
    let cancels := if v.onProgress then cancels else fun _ => false
    let callbacks := (messageDispatch v.protobuf v.snap cancels x.state.contexts m.intoData).2
    (Wsmq.step v.endpoint x.state (.receive m cancels)).map fun t =>
      {x with state := t, calls := x.calls ++ callbacks.flatMap (called v x.state.lock)}
  | .select failed =>
    (Wsmq.step v.endpoint x.state .select).map fun t =>
      {x with
        state := t
        calls := x.calls ++ if failed && v.onError then [.connectionError] else []}
  | .close => if x.held then some {x with aborting := true} else none
  | .drop => if x.held then some {x with held := false, aborting := true} else none
  | .abort =>
    if x.aborting then (Wsmq.step v.endpoint x.state .abort).map fun t => {x with state := t}
    else none

/-! ### What the log says of the calls -/

/-- The call that an event records. -/
def callOf : Event → Option Call
  | .progressed pctx =>
    if v.onProgress then some (.progress {pctx with canceled := false}) else none
  | .errored err => if v.onError then some (.error err) else none
  | .delivered _ _ .mutexError => if v.onError then some .mutexError else none
  | _ => none

/-- The calls that a log records, in order. -/
def callsOf (log : List Event) : List Call := log.filterMap (callOf v)

theorem callsOf_append (a b : List Event) : callsOf v (a ++ b) = callsOf v a ++ callsOf v b :=
  List.filterMap_append

variable {v}
variable {s t : State} {x y : Connected}

theorem onMessage_ne_mutexError (responses : ResponseStatusMap) (u : Uuid) (m : Bytes) :
    (Client.onMessage responses u m).2 ≠ .mutexError := by
  rw [onMessage_outcome]
  cases responses.lookup u with
  | none => exact fun h => by cases h
  | some status => cases status <;> exact fun h => by cases h

theorem callOf_delivered {u : Uuid} {m : Bytes} {outcome : Outcome} (h : outcome ≠ .mutexError) :
    callOf v (.delivered u m outcome) = none := by
  cases outcome with
  | mutexError => exact absurd rfl h
  | _ => rfl

theorem handle_called {callback : Callback} (h : handle v.endpoint s callback = some t) :
    callsOf v t.log = callsOf v s.log ++ called v s.lock callback ∧ t.lock = s.lock := by
  cases callback with
  | onMessage u m =>
    simp only [handle] at h
    split at h
    · rename_i hside
      cases hside
    · split at h
      · cases h
      · rename_i hlock
        cases h
        refine ⟨?_, rfl⟩
        rw [State.record_log, callsOf_append, hlock]
        exact congrArg _ (List.filterMap_cons_none
          (callOf_delivered (onMessage_ne_mutexError s.responses u m)))
      · rename_i hlock
        cases h
        refine ⟨?_, rfl⟩
        rw [State.record_log, callsOf_append, hlock]
        cases herror : v.onError <;> simp [callsOf, callOf, called, herror]
  | onCallback pctx =>
    cases h
    refine ⟨?_, rfl⟩
    rw [State.record_log, callsOf_append]
    cases hprogress : v.onProgress <;> simp [callsOf, callOf, called, hprogress]
  | onError err =>
    cases h
    refine ⟨?_, rfl⟩
    rw [State.record_log, callsOf_append]
    cases herror : v.onError <;> simp [callsOf, callOf, called, herror]
  | onCanceled pctx =>
    cases h
    exact ⟨(List.append_nil _).symm, rfl⟩

theorem handles_called {callbacks : List Callback}
    (h : callbacks.foldlM (handle v.endpoint) s = some t) :
    callsOf v t.log = callsOf v s.log ++ callbacks.flatMap (called v s.lock) := by
  induction callbacks generalizing s with
  | nil =>
    cases h
    exact (List.append_nil _).symm
  | cons callback rest ih =>
    rw [List.foldlM_cons] at h
    obtain ⟨between, hfirst, hrest⟩ := Option.bind_eq_some_iff.mp h
    obtain ⟨hcalled, hlock⟩ := handle_called hfirst
    rw [ih hrest, hcalled, hlock, List.append_assoc]
    rfl

theorem receive_called {m : WsMessage} {cancels : ProgressContext → Bool}
    (h : Wsmq.step v.endpoint s (.receive m cancels) = some t) :
    callsOf v t.log = callsOf v s.log ++ (messageDispatch v.protobuf v.snap cancels s.contexts
      m.intoData).2.flatMap (called v s.lock) := by
  simp only [Wsmq.step] at h
  split at h
  · rw [handles_called h, State.record_log, callsOf_append]
    congr 1
    exact List.append_nil _
  · cases h

theorem callOf_quiet {ev : Event} (h : ev.callback = none) : callOf v ev = none := by
  cases ev <;> first | rfl | cases h

/-! ### A client along a run -/

variable (v) in
/-- What the user of a client is told: the calls that the log says, then at most the error of the
connection, and not even that when the task was stopped. -/
structure Told (x : Connected) : Prop where
  connection : Runs.Reachable (Wsmq.step v.endpoint) (fun _ _ => True) .init x.state
  calls : ∃ last, x.calls = callsOf v x.state.log ++ last ∧ (last = [] ∨
    last = [.connectionError] ∧ x.state.task ≠ .running ∧ .aborted ∉ x.state.log)
  stopped : .aborted ∈ x.state.log → x.aborting
  left : x.held = false → x.aborting

theorem Told.unstopped (h : Told v x) (htask : x.state.task = .running) :
    .aborted ∉ x.state.log := fun habort => by
  cases htask.symm.trans ((history_of_reachable h.connection).aborted rfl habort)

/-- While the connection reads, the log says all. -/
theorem Told.reading (h : Told v x) (htask : x.state.task = .running) :
    x.calls = callsOf v x.state.log := by
  obtain ⟨last, hcalls, rfl | ⟨-, hstopped, -⟩⟩ := h.calls
  · exact hcalls.trans (List.append_nil _)
  · exact absurd htask hstopped

/-- A step that calls nothing back. -/
theorem Told.quiet {a : Action} (h : Told v x) (ha : ¬ a.isReceive)
    (hstep : Wsmq.step v.endpoint x.state a = some t) (habort : a = .abort → x.aborting) :
    Told v {x with state := t} := by
  obtain ⟨ev, hev⟩ := step_event hstep ha
  have haborts : .aborted ∈ t.log → .aborted ∈ x.state.log ∨ a = .abort := by
    intro hmem
    rw [hev.log] at hmem
    obtain hmem | hmem := List.mem_append.mp hmem
    · exact .inl hmem
    · cases List.mem_singleton.mp hmem
      cases hev
      exact .inr rfl
  refine ⟨h.connection.step trivial hstep, ?_, fun hmem => ?_, h.left⟩
  · obtain ⟨last, hcalls, hlast⟩ := h.calls
    refine ⟨last, ?_, hlast.imp_right fun ⟨hlast, hstopped, hunstopped⟩ => ⟨hlast, ?_, ?_⟩⟩
    · have hnone : callsOf v [ev] = [] := List.filterMap_cons_none (callOf_quiet (hev.quiet ha).1)
      show x.calls = callsOf v t.log ++ last
      rw [hev.log, callsOf_append, hnone, List.append_nil]
      exact hcalls
    · exact fun hrunning => hstopped (hev.still_running hrunning)
    · intro hmem
      obtain hmem | rfl := haborts hmem
      · exact hunstopped hmem
      · cases hev with
        | aborted _ htask => exact hstopped htask
  · obtain hmem | ha := haborts hmem
    · exact h.stopped hmem
    · exact habort ha

theorem Told.receive {m : WsMessage} {cancels : ProgressContext → Bool} (h : Told v x)
    (hstep : Wsmq.step v.endpoint x.state (.receive m cancels) = some t) :
    Told v {x with
      state := t
      calls := x.calls ++ (messageDispatch v.protobuf v.snap cancels x.state.contexts
        m.intoData).2.flatMap (called v x.state.lock)} := by
  obtain ⟨htask, ⟨evs, hlog, hevs⟩, -⟩ := receive_events hstep
  refine ⟨h.connection.step trivial hstep, ⟨[], ?_, .inl rfl⟩, fun hmem => ?_, h.left⟩
  · rw [h.reading htask, receive_called hstep, List.append_nil]
  · have hmem : .aborted ∈ t.log := hmem
    rw [hlog] at hmem
    obtain hmem | hmem := List.mem_append.mp hmem
    · exact h.stopped hmem
    · obtain hmem | hmem := List.mem_cons.mp hmem
      · cases hmem
      · obtain ⟨callback, -, hcallback⟩ := hevs _ hmem
        cases hcallback

theorem told_step {a : ConnectedAction} (h : Told v x) (hstep : step v x a = some y) :
    Told v y := by
  cases a with
  | send c request =>
    simp only [step] at hstep
    split at hstep
    · obtain ⟨t, ht, rfl⟩ := Option.map_eq_some_iff.mp hstep
      exact h.quiet id ht fun h => by cases h
    · cases hstep
  | act a =>
    cases a with
    | send | receive | select | abort => cases hstep
    | _ =>
      obtain ⟨t, ht, rfl⟩ := Option.map_eq_some_iff.mp hstep
      exact h.quiet id ht fun h => by cases h
  | receive m cancels =>
    obtain ⟨t, ht, rfl⟩ := Option.map_eq_some_iff.mp hstep
    exact h.receive ht
  | select failed =>
    obtain ⟨t, ht, rfl⟩ := Option.map_eq_some_iff.mp hstep
    have hquiet := h.quiet id ht fun h => by cases h
    split
    · -- The error of the connection.
      have hselected : x.state.task = .running ∧
          t = {x.state with task := .selected}.record .selected := by
        simp only [Wsmq.step] at ht
        split at ht <;> cases ht
        exact ⟨‹_›, rfl⟩
      obtain ⟨htask, rfl⟩ := hselected
      have hlog : callsOf v (x.state.log ++ [.selected]) = callsOf v x.state.log := by
        rw [callsOf_append]
        exact List.append_nil _
      refine ⟨hquiet.connection, ⟨[.connectionError], ?_, .inr ⟨rfl, ?_, ?_⟩⟩, hquiet.stopped,
        hquiet.left⟩
      · show x.calls ++ _ = callsOf v (x.state.log ++ [.selected]) ++ _
        rw [hlog, h.reading htask]
      · exact fun h => by cases h
      · simpa using h.unstopped htask
    · rw [List.append_nil]
      exact hquiet
  | close =>
    simp only [step] at hstep
    split at hstep <;> cases hstep
    exact ⟨h.connection, h.calls, fun _ => rfl, fun _ => rfl⟩
  | drop =>
    simp only [step] at hstep
    split at hstep <;> cases hstep
    exact ⟨h.connection, h.calls, fun _ => rfl, fun _ => rfl⟩
  | abort =>
    simp only [step] at hstep
    split at hstep
    · rename_i haborting
      obtain ⟨t, ht, rfl⟩ := Option.map_eq_some_iff.mp hstep
      exact h.quiet id ht fun _ => haborting
    · cases hstep

/-- **What the user of a client is told**, in every run. -/
theorem told_in_order (h : Runs.Reachable (step v) (fun _ _ => True) .init x) : Told v x := by
  apply h.invariant
  · exact ⟨.init, ⟨[], rfl, .inl rfl⟩, nofun, nofun⟩
  · exact fun _ _ _ _ hs _ hstep => told_step hs hstep

/-- A client with both closures and a small bandwidth. -/
def exampleConnector : Connector := ⟨some ⟨16, true, true⟩, .generated, .framed⟩

/-- A transfer begins, a string is no frame, the connection fails, and the client is dropped. -/
def failing : List ConnectedAction :=
  [.send exampleCall (.bytes [1]), .receive (.binary (Protobuf.generated.writeToBytes
      (beginFrame .nil 5))) fun _ => true, .receive (.ping [255]) fun _ => false, .select true,
    .drop, .act .clearWake, .act .clearEmpty, .act .dropReceiver]

theorem told_in_order_failing : ∃ x,
    x.calls = [.progress (.new .BEGIN .nil 5 0), .error .protobuf, .connectionError] ∧
      Told exampleConnector x := by
  have hview : (Runs.run (step exampleConnector) .init failing).map (fun x => x.calls) =
      some [.progress (.new .BEGIN .nil 5 0), .error .protobuf, .connectionError] := by
    decide +kernel
  obtain ⟨x, hx, hcalls⟩ := Option.map_eq_some_iff.mp hview
  exact ⟨x, hcalls, told_in_order (Runs.Reachable.init.run (fun _ _ _ => trivial) hx)⟩

end Client
end Wsmq
