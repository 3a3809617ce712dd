import Wsmq.Message
import Wsmq.Response
import Wsmq.Library.Runs

/-! One end of a connection, as its threads see it.

Users call `send` and `reply`, poll futures and drop them; the network task
receives, and at the end tears the connection down. Everything they share is in
`State`: the response table behind its mutex, the outgoing queue, and for the task
alone the reassembly contexts. A step is one critical section, one
`unbounded_send`, or one received message. `step` gives nothing where a thread would
wait for the mutex, or has no such call to make.

A call is named by its uuid and a number (`Ticket`), and the future it returns by
the same. `log` records what happened, oldest first; nothing reads it but
`hasResponse`, which says whether the user was ever given a `Response` to reply to. -/
namespace Wsmq

/-- The name of a call, and of the future it returns. -/
structure Ticket where
  uuid : Uuid
  id : Nat
deriving DecidableEq

inductive Side where
  | client
  | server
deriving DecidableEq

/-- What does not change while the connection is up. -/
structure Endpoint where
  side : Side
  bandwidth : UInt64
  protobuf : Protobuf
  snap : Snap

/-- The mutex over the table. Only `reply` holds it for more than a step. -/
inductive Lock where
  | free
  | held (call : Ticket)
  | poisoned
deriving DecidableEq

/-- A call before it is made, while it sends, and the future it returned. `gone` is
a future that was dropped, or a call that returned none. -/
inductive Stage where
  | idle
  | sending (rest : Sending)
  | live
  | gone
deriving DecidableEq

/-- Where the network task is: in its `select`, after it, and on the client after
each half of `clear`. The queue's receiver lives until it has ended. -/
inductive Task where
  | running
  | selected
  | woke
  | cleared
  | ended
deriving DecidableEq

/-- `tungstenite::Message`. A close frame carries a reason. -/
inductive WsMessage where
  | text (data : Bytes)
  | binary (data : Bytes)
  | ping (data : Bytes)
  | pong (data : Bytes)
  | close (reason : Option Bytes)
deriving DecidableEq

/-- `into_data`. Pings, pongs and close frames are dispatched like the rest. -/
def WsMessage.intoData : WsMessage → Bytes
  | .text data => data
  | .binary data => data
  | .ping data => data
  | .pong data => data
  | .close none => []
  | .close (some reason) => reason

/-- What the log records. -/
inductive Event where
  /-- The call has a key in the table, its own or one it found. -/
  | opened (call : Ticket)
  /-- The table was poisoned and the call goes by the nil uuid. -/
  | unregistered (call : Ticket)
  | queued (call : Ticket) (frame : Frame)
  | refused (call : Ticket) (frame : Frame)
  | returned (call : Ticket) (result : Return)
  /-- The call panicked with the table locked. -/
  | poisoned (call : Ticket)
  | polled (future : Ticket) (waker : Waker) (result : Poll)
  | dropped (future : Ticket) (removed : Bool)
  | received (data : Bytes)
  | progressed (pctx : ProgressContext)
  | canceled (pctx : ProgressContext)
  | errored (err : DispatchError)
  | delivered (uuid : Uuid) (message : Bytes) (outcome : Outcome)
  | selected
  | clearWoke (wakers : Multiset (Uuid × Waker))
  | clearEmptied
  | clearPanicked
  | receiverDropped
  | aborted
deriving DecidableEq

/-- The event gives the user a `Response` for `uuid`. -/
def Event.givesResponse (uuid : Uuid) : Event → Bool
  | .polled _ _ (.readyOk response) => response.uuid = uuid
  | .delivered u _ .handed => u = uuid
  | _ => false

/-- The user was given a `Response` for `uuid` at some time. -/
def hasResponse (uuid : Uuid) (log : List Event) : Bool := log.any (Event.givesResponse uuid)

/-- One end of a connection. The contexts are the task's own, the rest is shared. -/
@[ext] structure State where
  responses : ResponseStatusMap
  lock : Lock
  queue : List Frame
  calls : Ticket → Stage
  contexts : Contexts
  task : Task
  log : List Event

namespace State

def init : State := ⟨∅, .free, [], fun _ => .idle, ∅, .running, []⟩

def record (s : State) (event : Event) : State := {s with log := s.log ++ [event]}

def setCall (s : State) (call : Ticket) (stage : Stage) : State :=
  {s with calls := Function.update s.calls call stage}

/-- The guard of a `reply` goes when it returns. -/
def release (s : State) (call : Ticket) : State :=
  {s with lock := if s.lock = .held call then .free else s.lock}

variable (s : State) (c d : Ticket) (stage : Stage) (event : Event)

@[simp] theorem record_responses : (s.record event).responses = s.responses := rfl
@[simp] theorem record_lock : (s.record event).lock = s.lock := rfl
@[simp] theorem record_queue : (s.record event).queue = s.queue := rfl
@[simp] theorem record_calls : (s.record event).calls = s.calls := rfl
@[simp] theorem record_contexts : (s.record event).contexts = s.contexts := rfl
@[simp] theorem record_task : (s.record event).task = s.task := rfl
@[simp] theorem record_log : (s.record event).log = s.log ++ [event] := rfl

@[simp] theorem setCall_responses : (s.setCall c stage).responses = s.responses := rfl
@[simp] theorem setCall_lock : (s.setCall c stage).lock = s.lock := rfl
@[simp] theorem setCall_queue : (s.setCall c stage).queue = s.queue := rfl
@[simp] theorem setCall_contexts : (s.setCall c stage).contexts = s.contexts := rfl
@[simp] theorem setCall_task : (s.setCall c stage).task = s.task := rfl
@[simp] theorem setCall_log : (s.setCall c stage).log = s.log := rfl

@[simp] theorem setCall_calls :
    (s.setCall c stage).calls d = if d = c then stage else s.calls d :=
  Function.update_apply s.calls c stage d

@[simp] theorem release_responses : (s.release c).responses = s.responses := rfl
@[simp] theorem release_queue : (s.release c).queue = s.queue := rfl
@[simp] theorem release_calls : (s.release c).calls = s.calls := rfl
@[simp] theorem release_contexts : (s.release c).contexts = s.contexts := rfl
@[simp] theorem release_task : (s.release c).task = s.task := rfl
@[simp] theorem release_log : (s.release c).log = s.log := rfl

theorem release_lock : (s.release c).lock = if s.lock = .held c then .free else s.lock := rfl

end State

/-- What the threads can do. `push` and `ret` are the steps of a call that has begun, one frame
at a time; whether the progress callback of a received message cancels is up to the user. -/
inductive Action where
  | send (call : Ticket) (request : Request)
  | reply (call : Ticket) (request : Request)
  | push (call : Ticket)
  | ret (call : Ticket)
  | poll (future : Ticket) (waker : Waker)
  | drop (future : Ticket)
  | receive (message : WsMessage) (cancels : ProgressContext → Bool)
  | select
  | clearWake
  | clearEmpty
  | dropReceiver
  | abort

variable (e : Endpoint)

/-- The connection's closures for `message_dispatch!`. -/
def handle (s : State) : Callback → Option State
  | .onMessage uuid message =>
    match e.side with
    | .server => some (s.record (.delivered uuid message .handed))
    | .client =>
      match s.lock with
      | .held _ => none
      | .free =>
        let handled := Client.onMessage s.responses uuid message
        some ({s with responses := handled.1}.record (.delivered uuid message handled.2))
      | .poisoned => some (s.record (.delivered uuid message .mutexError))
  | .onCallback pctx => some (s.record (.progressed pctx))
  | .onError err => some (s.record (.errored err))
  | .onCanceled pctx =>
    match e.side with
    | .client => some s
    -- The read stream ends with an error, and `select` with it.
    | .server => some ({s with task := .selected}.record (.canceled pctx))

/-- The state after an action, if a thread can make it. -/
def step (s : State) : Action → Option State
  | .send c request =>
    if e.side = .client ∧ s.calls c = .idle then
      let opened := s.setCall c (.sending (request.sending e.snap e.bandwidth c.uuid))
      match s.lock with
      | .held _ => none
      | .free => (SharedData.generateUuid s.responses c.uuid).map fun responses =>
          {opened with responses := responses}.record (.opened c)
      | .poisoned => if c.uuid = .nil then some (opened.record (.unregistered c)) else none
    else none
  | .reply c request =>
    if hasResponse c.uuid s.log ∧ s.calls c = .idle then
      match s.lock with
      | .held _ => none
      | .free => some ({s.setCall c (.sending (request.sending e.snap e.bandwidth c.uuid)) with
          responses := Response.register s.responses c.uuid, lock := .held c}.record (.opened c))
      | .poisoned => some ((s.setCall c .gone).record (.returned c (.err .mutexError)))
    else none
  | .push c =>
    match s.calls c with
    | .sending (.queue frame rest) =>
      if s.task = .ended then
        some ((s.setCall c (.sending (.done (.err (.internalError .disconnected))))).record
          (.refused c frame))
      else
        some ({s.setCall c (.sending rest) with queue := s.queue ++ [frame]}.record
          (.queued c frame))
    | _ => none
  | .ret c =>
    match s.calls c with
    | .sending (.done .ok) => some (((s.setCall c .live).release c).record (.returned c .ok))
    | .sending (.done (.err err)) =>
      some (((s.setCall c .gone).release c).record (.returned c (.err err)))
    | .sending (.done .panicked) =>
      if s.lock = .held c then
        some ({s.setCall c .gone with lock := .poisoned}.record (.poisoned c))
      else some ((s.setCall c .gone).record (.returned c .panicked))
    | _ => none
  | .poll f w =>
    if s.calls f = .live then
      match s.lock with
      | .held _ => none
      | .free =>
        let polled := ResponseFuture.poll s.responses f.uuid w
        some ({s with responses := polled.2}.record (.polled f w polled.1))
      | .poisoned => some (s.record (.polled f w (.readyErr .mutexError)))
    else none
  | .drop f =>
    if s.calls f = .live then
      match s.lock with
      | .held _ => none
      | .free => some ({s.setCall f .gone with
          responses := ResponseFuture.drop s.responses f.uuid}.record (.dropped f true))
      | .poisoned => some ((s.setCall f .gone).record (.dropped f false))
    else none
  | .receive m cancels =>
    if s.task = .running then
      let dispatched := messageDispatch e.protobuf e.snap cancels s.contexts m.intoData
      dispatched.2.foldlM (handle e)
        ({s with contexts := dispatched.1}.record (.received m.intoData))
    else none
  | .select =>
    if s.task = .running then some ({s with task := .selected}.record .selected) else none
  | .clearWake =>
    if e.side = .client ∧ s.task = .selected then
      match s.lock with
      | .held _ => none
      | .free => some ({s with task := .woke}.record
          (.clearWoke (SharedData.startedWakers s.responses)))
      -- `lock().unwrap()`
      | .poisoned => some ({s with task := .ended}.record .clearPanicked)
    else none
  | .clearEmpty =>
    if s.task = .woke then
      match s.lock with
      | .held _ => none
      | .free => some ({s with responses := ∅, task := .cleared}.record .clearEmptied)
      | .poisoned => some ({s with task := .ended}.record .clearPanicked)
    else none
  | .dropReceiver =>
    if (e.side = .client ∧ s.task = .cleared) ∨ (e.side = .server ∧ s.task = .selected) then
      some ({s with task := .ended}.record .receiverDropped)
    else none
  | .abort =>
    if e.side = .client ∧ s.task = .running then
      some ({s with task := .ended}.record .aborted)
    else none

end Wsmq
