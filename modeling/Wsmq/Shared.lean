import Wsmq.Codec

/-! Sending: `SharedData::send`, `send_message` and what they call.

A call hands frames to the outgoing queue one by one, and other threads run
between any two of them. `Sending` is what a call still has to do: the frames it
will queue and how it returns. A frame the queue refuses ends the call with an
error (`?` and the `return Err`s of the source), which is left to whoever runs the
call, so that the queue may be closed at any point.

`Transfer` is the shape of the frames of one complete message, `Carries` the same
with the message they bring. With a positive bandwidth every call either fails
before its first frame or queues exactly one transfer (`request_shape`). -/
namespace Wsmq

/-- The causes boxed in `Error::InternalError`. -/
inductive Cause where
  | disconnected
  | snap
  | protobuf
deriving DecidableEq

inductive Error where
  | connectionError
  | invalidParameters
  | notFound
  | mutexError
  | internalError (cause : Cause)
deriving DecidableEq

/-- How a call ends. `Ok` holds a future for the uuid of the call. -/
inductive Return where
  | ok
  | err (e : Error)
  | panicked
deriving DecidableEq

inductive Sending where
  | done (r : Return)
  | queue (frame : Frame) (rest : Sending)
deriving DecidableEq

namespace Sending

/-- The frames still to be queued. -/
def frames : Sending → List Frame
  | .done _ => []
  | .queue frame rest => frame :: rest.frames

/-- How the call returns when no frame is refused. -/
def result : Sending → Return
  | .done r => r
  | .queue _ rest => rest.result

def queueAll (rest : Sending) : List Frame → Sending
  | [] => rest
  | frame :: more => .queue frame (queueAll rest more)

@[simp] theorem frames_queueAll (rest : Sending) (fs : List Frame) :
    (queueAll rest fs).frames = fs ++ rest.frames := by
  induction fs with
  | nil => rfl
  | cons f more ih => rw [queueAll, frames, ih, List.cons_append]

@[simp] theorem result_queueAll (rest : Sending) (fs : List Frame) :
    (queueAll rest fs).result = rest.result := by
  induction fs with
  | nil => rfl
  | cons f more ih => rw [queueAll, result, ih]

theorem queueAll_append (rest : Sending) (a b : List Frame) :
    queueAll rest (a ++ b) = queueAll (queueAll rest b) a := by
  induction a with
  | nil => rfl
  | cons f more ih => rw [List.cons_append, queueAll, ih, queueAll]

end Sending

/-! ### The frames of a call -/

def oneshotFrame (uuid : Uuid) (message : Bytes) : Frame :=
  .oneshot ⟨.ONESHOT, uuid.bytes, message⟩

def beginFrame (uuid : Uuid) (length : Nat) : Frame :=
  .begin ⟨.BEGIN, uuid.bytes, .SNAPPY, UInt64.ofNat length⟩

def processFrame (uuid : Uuid) (seq : UInt64) (chunk : Bytes) : Frame :=
  .process ⟨.PROCESS, uuid.bytes, seq, chunk⟩

def endFrame (uuid : Uuid) : Frame := .end ⟨.END, uuid.bytes⟩

/-- One PROCESS frame a chunk, numbered from `seq`. -/
def processFrames (uuid : Uuid) : UInt64 → List Bytes → List Frame
  | _, [] => []
  | seq, chunk :: chunks => processFrame uuid seq chunk :: processFrames uuid (seq + 1) chunks

/-- A `&dyn protobuf::Message`: the size it computes for itself and the writes it
makes into a writer, none when it misses a required field. -/
structure DynMessage where
  computeSize : UInt32
  writes : Option (List Bytes)
deriving DecidableEq

namespace SharedData
variable (S : Snap) (bandwidth : UInt64)

def sendBytes (uuid : Uuid) (message : Bytes) : Sending :=
  .queue (oneshotFrame uuid message) (.done .ok)

def sendLargeBytes (uuid : Uuid) (message : Bytes) : Sending :=
  .queue (beginFrame uuid message.length)
    -- `chunks_mut` panics on a chunk size of zero, after BEGIN is queued.
    (if bandwidth = 0 then .done .panicked
    else Sending.queueAll (.queue (endFrame uuid) (.done .ok))
      (processFrames uuid 0 (Chunks.chunks bandwidth.toNat message)))

def send (uuid : Uuid) (message : Bytes) : Sending :=
  if message.length > bandwidth.toNat then
    match S.encode [message] with
    | some message => sendLargeBytes bandwidth uuid message
    | none => .done (.err (.internalError .snap))
  else sendBytes uuid message

/-- The size is compared with `bandwidth as u32`, the chunks have the whole
bandwidth. -/
def sendMessage (uuid : Uuid) (message : DynMessage) : Sending :=
  if message.computeSize > bandwidth.toUInt32 then
    match message.writes with
    | none => .done (.err (.internalError .protobuf))
    | some writes =>
      match S.encode writes with
      | some message => sendLargeBytes bandwidth uuid message
      | none => .done (.err (.internalError .snap))
  else
    match message.writes with
    | some writes => sendBytes uuid writes.flatten
    | none => .done (.err (.internalError .protobuf))

end SharedData

/-- What `send` or `send_message` is asked to send. -/
inductive Request where
  | bytes (message : Bytes)
  | message (message : DynMessage)
deriving DecidableEq

namespace Request

/-- The bytes of the message, if it can be written. -/
def payload : Request → Option Bytes
  | .bytes m => some m
  | .message m => m.writes.map List.flatten

def sending (S : Snap) (bandwidth : UInt64) (uuid : Uuid) : Request → Sending
  | .bytes m => SharedData.send S bandwidth uuid m
  | .message m => SharedData.sendMessage S bandwidth uuid m

end Request

/-! ### Transfers -/

/-- The frames of one complete message: one ONESHOT, or BEGIN, PROCESS with `seq`
from zero, END. -/
inductive Transfer (uuid : Uuid) : List Frame → Prop where
  | oneshot (message : Bytes) : Transfer uuid [oneshotFrame uuid message]
  | chunked (length : Nat) (chunks : List Bytes) :
      Transfer uuid (beginFrame uuid length :: (processFrames uuid 0 chunks ++ [endFrame uuid]))

/-- A transfer that brings the message `x`. -/
inductive Carries (S : Snap) (uuid : Uuid) (x : Bytes) : List Frame → Prop where
  | oneshot : Carries S uuid x [oneshotFrame uuid x]
  | chunked {c : Bytes} {chunks : List Bytes} (hflat : chunks.flatten = c)
      (hdecode : S.decode c = some x) : Carries S uuid x
        (beginFrame uuid c.length :: (processFrames uuid 0 chunks ++ [endFrame uuid]))

theorem Carries.transfer {S : Snap} {uuid : Uuid} {x : Bytes} {fs : List Frame}
    (h : Carries S uuid x fs) : Transfer uuid fs := by
  cases h with
  | oneshot => exact .oneshot x
  | chunked hflat hdecode => exact .chunked _ _

/-- Every frame of a transfer is under its uuid and has the type of its kind. -/
theorem Transfer.mem {uuid : Uuid} {fs : List Frame} (h : Transfer uuid fs) :
    ∀ f ∈ fs, f.uuid = uuid.bytes ∧ f.fieldType = f.kind := by
  have hprocess : ∀ (chunks : List Bytes) (seq : UInt64),
      ∀ f ∈ processFrames uuid seq chunks, f.uuid = uuid.bytes ∧ f.fieldType = f.kind := by
    intro chunks
    induction chunks with
    | nil => intro seq f hf; cases hf
    | cons chunk rest ih =>
      intro seq f hf
      rcases List.mem_cons.mp hf with rfl | hf
      · exact ⟨rfl, rfl⟩
      · exact ih (seq + 1) f hf
  intro f hf
  cases h with
  | oneshot message =>
    cases List.mem_singleton.mp hf
    exact ⟨rfl, rfl⟩
  | chunked length chunks =>
    rcases List.mem_cons.mp hf with rfl | hf
    · exact ⟨rfl, rfl⟩
    · rcases List.mem_append.mp hf with hf | hf
      · exact hprocess chunks 0 f hf
      · cases List.mem_singleton.mp hf
        exact ⟨rfl, rfl⟩

theorem Transfer.ne_nil {uuid : Uuid} {fs : List Frame} (h : Transfer uuid fs) : fs ≠ [] := by
  cases h <;> simp

variable {S : Snap} {bandwidth : UInt64} {uuid : Uuid}

theorem sendLargeBytes_eq (hb : bandwidth ≠ 0) (message : Bytes) :
    SharedData.sendLargeBytes bandwidth uuid message =
      Sending.queueAll (.done .ok) (beginFrame uuid message.length ::
        (processFrames uuid 0 (Chunks.chunks bandwidth.toNat message) ++ [endFrame uuid])) := by
  rw [SharedData.sendLargeBytes, if_neg hb, Sending.queueAll, Sending.queueAll_append]
  rfl

theorem sendLargeBytes_frames (hb : bandwidth ≠ 0) (message : Bytes) :
    (SharedData.sendLargeBytes bandwidth uuid message).frames =
      beginFrame uuid message.length ::
        (processFrames uuid 0 (Chunks.chunks bandwidth.toNat message) ++ [endFrame uuid]) := by
  rw [sendLargeBytes_eq hb, Sending.frames_queueAll]
  exact List.append_nil _

theorem toNat_pos (hb : bandwidth ≠ 0) : 0 < bandwidth.toNat :=
  Nat.pos_of_ne_zero fun h => hb (UInt64.toNat_inj.mp h)

/-- What a call does: it fails before its first frame, queues one transfer, or panics after
BEGIN. -/
inductive Plan (bandwidth : UInt64) (uuid : Uuid) : Sending → Prop where
  | fails (err : Error) : Plan bandwidth uuid (.done (.err err))
  | sends {fs : List Frame} (h : Transfer uuid fs) :
      Plan bandwidth uuid (Sending.queueAll (.done .ok) fs)
  | panics (hb : bandwidth = 0) (length : Nat) :
      Plan bandwidth uuid (.queue (beginFrame uuid length) (.done .panicked))

theorem sendLargeBytes_plan (message : Bytes) :
    Plan bandwidth uuid (SharedData.sendLargeBytes bandwidth uuid message) := by
  by_cases hb : bandwidth = 0
  · rw [SharedData.sendLargeBytes, if_pos hb]
    exact .panics hb _
  · rw [sendLargeBytes_eq hb]
    exact .sends (.chunked _ _)

theorem request_plan (request : Request) :
    Plan bandwidth uuid (request.sending S bandwidth uuid) := by
  cases request with
  | bytes m =>
    rw [Request.sending, SharedData.send]
    split
    · split
      · exact sendLargeBytes_plan _
      · exact .fails _
    · exact .sends (.oneshot m)
  | message m =>
    rw [Request.sending, SharedData.sendMessage]
    split
    · split
      · exact .fails _
      · split
        · exact sendLargeBytes_plan _
        · exact .fails _
    · split
      · exact .sends (.oneshot _)
      · exact .fails _

/-- **What a call queues**: nothing, or the frames of one transfer. -/
theorem request_shape (uuid : Uuid) (hb : bandwidth ≠ 0) (request : Request) :
    (∃ e, request.sending S bandwidth uuid = .done (.err e)) ∨
      ∃ fs, Transfer uuid fs ∧
        request.sending S bandwidth uuid = Sending.queueAll (.done .ok) fs := by
  have hplan : Plan bandwidth uuid (request.sending S bandwidth uuid) := request_plan request
  generalize request.sending S bandwidth uuid = sending at hplan
  cases hplan with
  | fails err => exact .inl ⟨err, rfl⟩
  | sends h => exact .inr ⟨_, h, rfl⟩
  | panics hzero => exact absurd hzero hb

/-- **What a call sends arrives**: a message that can be written is queued as a
transfer that carries it. -/
theorem request_carries (uuid : Uuid) (hS : S.Inverts) (hb : bandwidth ≠ 0) {request : Request}
    {x : Bytes} (hx : request.payload = some x) : ∃ fs, Carries S uuid x fs ∧
      request.sending S bandwidth uuid = Sending.queueAll (.done .ok) fs := by
  have hlarge : ∀ c, S.decode c = some x → ∃ fs, Carries S uuid x fs ∧
      SharedData.sendLargeBytes bandwidth uuid c = Sending.queueAll (.done .ok) fs :=
    fun c hc => ⟨_, .chunked (Chunks.flatten_chunks (toNat_pos hb) c) hc, sendLargeBytes_eq hb c⟩
  cases request with
  | bytes message =>
    cases hx
    obtain ⟨c, hc, hd⟩ := hS.decode_encode [x]
    simp only [Request.sending, SharedData.send]
    split
    · rw [hc]
      exact hlarge c (by simpa using hd)
    · exact ⟨_, .oneshot, rfl⟩
  | message m =>
    obtain ⟨writes, hw, rfl⟩ := Option.map_eq_some_iff.mp hx
    obtain ⟨c, hc, hd⟩ := hS.decode_encode writes
    simp only [Request.sending, SharedData.sendMessage, hw]
    split
    · rw [hc]
      exact hlarge c hd
    · exact ⟨_, .oneshot, rfl⟩

end Wsmq
