import Wsmq.Codec
import Wsmq.Library.Keyed

/-! `message_dispatch!`: what one received byte string does.

The macro reads the string as a `Header`, then again as the message the header
names, and keeps for every uuid with an unfinished transfer a `MessageContext` in
a map. It is modelled as a function from the map to the map after it and the
callbacks it makes, in order. Whether a progress callback cancels is the
callback's own choice (`cancels`).

`frameOf` and `MessageContext.next` are the same function seen from one uuid: the
string carries at most one frame, for one uuid, and only that uuid's context
steps (`dispatch_frame`). What a string does in every case is `dispatch_eq`. -/
namespace Wsmq

structure MessageContext where
  compression : Compression
  totalLength : UInt64
  buffer : Bytes
deriving DecidableEq

abbrev Contexts := HashMap Uuid MessageContext

/-- `canceled` as it stands after the callback. -/
structure ProgressContext where
  method : FieldType
  uuid : Uuid
  totalLength : UInt64
  current : UInt64
  canceled : Bool
deriving DecidableEq

namespace ProgressContext

def new (method : FieldType) (uuid : Uuid) (totalLength current : UInt64) : ProgressContext :=
  ⟨method, uuid, totalLength, current, false⟩

def cancel (pctx : ProgressContext) : ProgressContext := {pctx with canceled := true}

/-- What a callback that follows `cancels` leaves of the context it is given. -/
def afterCallback (cancels : ProgressContext → Bool) (pctx : ProgressContext) : ProgressContext :=
  if cancels pctx then pctx.cancel else pctx

end ProgressContext

/-- The errors handed to `on_error`. The decoder's carries the uuid of the transfer
it ends. -/
inductive DispatchError where
  | protobuf
  | uuid
  | snap (uuid : Uuid)
deriving DecidableEq

inductive Callback where
  | onMessage (uuid : Uuid) (message : Bytes)
  | onCallback (pctx : ProgressContext)
  | onError (err : DispatchError)
  | onCanceled (pctx : ProgressContext)
deriving DecidableEq

/-- `$on_callback(&pctx)` followed by the check of `canceled`. -/
def progress (cancels : ProgressContext → Bool) (pctx : ProgressContext) : List Callback :=
  let pctx := pctx.afterCallback cancels
  if pctx.canceled then [.onCallback pctx, .onCanceled pctx] else [.onCallback pctx]

variable (P : Protobuf) (S : Snap)

def messageDispatch (cancels : ProgressContext → Bool) (contexts : Contexts) (data : Bytes) :
    Contexts × List Callback :=
  match P.parseHeader data with
  | none => (contexts, [.onError .protobuf])
  | some header =>
    match Uuid.fromSlice header.uuid with
    | none => (contexts, [.onError .uuid])
    | some uuid =>
      match header.fieldType with
      | .ONESHOT =>
        match P.parseOneshot data with
        | some oneshot => (contexts, [.onMessage uuid oneshot.message])
        | none => (contexts, [])
      | .BEGIN =>
        match P.parseBegin data with
        | none => (contexts, [])
        | some begin =>
          match Uuid.fromSlice begin.uuid with
          | none => (contexts, [])
          | some uuid =>
            (contexts.insert uuid ⟨begin.compression, begin.length, []⟩,
              progress cancels (.new .BEGIN uuid begin.length 0))
      | .PROCESS =>
        match P.parseProcess data with
        | none => (contexts, [])
        | some process =>
          match Uuid.fromSlice process.uuid with
          | none => (contexts, [])
          | some uuid =>
            match contexts.lookup uuid with
            | none => (contexts, [])
            | some context =>
              -- `seq` is not read, and nothing is compared with `total_length`.
              let context := {context with buffer := context.buffer ++ process.message}
              (contexts.insert uuid context,
                progress cancels (.new .PROCESS uuid context.totalLength
                  (UInt64.ofNat context.buffer.length)))
      | .END =>
        match P.parseEnd data with
        | none => (contexts, [])
        | some «end» =>
          match Uuid.fromSlice «end».uuid with
          | none => (contexts, [])
          | some uuid =>
            match contexts.lookup uuid with
            | none => (contexts, [])
            | some context =>
              (contexts.erase uuid,
                if context.compression = .SNAPPY then
                  match S.decode context.buffer with
                  -- The callback's `canceled` is not looked at.
                  | some decomp =>
                    [.onCallback (.afterCallback cancels
                      (.new .END uuid context.totalLength context.totalLength)),
                      .onMessage uuid decomp]
                  | none => [.onError (.snap uuid)]
                else [])

/-! ### The frame a string carries -/

/-- The frame a string carries and the uuid it is handled under, by the header, the
uuid and the message the header names. -/
def frameOf (data : Bytes) : Option (Uuid × Frame) :=
  (P.parseHeader data).bind fun header =>
    (Uuid.fromSlice header.uuid).bind fun uuid =>
      match header.fieldType with
      | .ONESHOT => (P.parseOneshot data).map fun m => (uuid, .oneshot m)
      | .BEGIN => (P.parseBegin data).bind fun m =>
          (Uuid.fromSlice m.uuid).map fun uuid => (uuid, .begin m)
      | .PROCESS => (P.parseProcess data).bind fun m =>
          (Uuid.fromSlice m.uuid).map fun uuid => (uuid, .process m)
      | .END => (P.parseEnd data).bind fun m =>
          (Uuid.fromSlice m.uuid).map fun uuid => (uuid, .end m)

/-- What a frame makes of the context of its uuid. -/
def MessageContext.next (context : Option MessageContext) : Frame → Option MessageContext
  | .oneshot _ => context
  | .begin m => some ⟨m.compression, m.length, []⟩
  | .process m => context.map fun c => {c with buffer := c.buffer ++ m.message}
  | .end _ => none

/-- The callbacks a frame causes, from the context of its uuid. -/
def MessageContext.callbacks (cancels : ProgressContext → Bool) (context : Option MessageContext)
    (uuid : Uuid) : Frame → List Callback
  | .oneshot m => [.onMessage uuid m.message]
  | .begin m => progress cancels (.new .BEGIN uuid m.length 0)
  | .process m =>
    match context with
    | none => []
    | some c => progress cancels (.new .PROCESS uuid c.totalLength
        (UInt64.ofNat (c.buffer ++ m.message).length))
  | .end _ =>
    match context with
    | none => []
    | some c =>
      if c.compression = .SNAPPY then
        match S.decode c.buffer with
        | some x => [.onCallback (.afterCallback cancels
            (.new .END uuid c.totalLength c.totalLength)), .onMessage uuid x]
        | none => [.onError (.snap uuid)]
      else []

/-- A string that carries no frame: the error the header causes, if it does. -/
def malformed (data : Bytes) : List Callback :=
  match P.parseHeader data with
  | none => [.onError .protobuf]
  | some header => if (Uuid.fromSlice header.uuid).isNone then [.onError .uuid] else []

variable {P S} {cancels : ProgressContext → Bool} {contexts : Contexts} {data : Bytes}

theorem dispatch_malformed (h : frameOf P data = none) :
    messageDispatch P S cancels contexts data = (contexts, malformed P data) := by
  unfold frameOf at h
  unfold messageDispatch malformed
  cases hh : P.parseHeader data with
  | none => rfl
  | some header =>
    rw [hh, Option.bind_some] at h
    dsimp only
    cases hu : Uuid.fromSlice header.uuid with
    | none => rfl
    | some uuid =>
      rw [hu, Option.bind_some] at h
      dsimp only [Option.isNone]
      rw [if_neg (by decide)]
      cases ht : header.fieldType <;> rw [ht] at h <;> dsimp only at h ⊢
      case ONESHOT =>
        rw [Option.map_eq_none_iff.mp h]
      -- In the other three branches the message does not parse or its uuid is no uuid.
      all_goals
        have hm := Option.bind_eq_none_iff.mp h
        split
        · rfl
        · rw [Option.map_eq_none_iff.mp (hm _ ‹_›)]

theorem dispatch_frame {uuid : Uuid} {frame : Frame} (h : frameOf P data = some (uuid, frame)) :
    messageDispatch P S cancels contexts data =
      (Keyed.step MessageContext.next contexts (uuid, frame),
        MessageContext.callbacks S cancels (contexts.lookup uuid) uuid frame) := by
  unfold frameOf at h
  unfold messageDispatch
  obtain ⟨header, hh, h⟩ := Option.bind_eq_some_iff.mp h
  obtain ⟨u, hu, h⟩ := Option.bind_eq_some_iff.mp h
  rw [hh]
  dsimp only
  rw [hu]
  dsimp only
  cases ht : header.fieldType <;> rw [ht] at h <;> dsimp only at h ⊢
  case ONESHOT =>
    obtain ⟨m, hm, he⟩ := Option.map_eq_some_iff.mp h
    cases he
    rw [hm]
    exact Prod.ext (Keyed.step_same _ _ _ rfl).symm rfl
  case BEGIN =>
    obtain ⟨m, hm, h⟩ := Option.bind_eq_some_iff.mp h
    obtain ⟨u', hu', he⟩ := Option.map_eq_some_iff.mp h
    cases he
    rw [hm]
    dsimp only
    rw [hu']
    rfl
  case PROCESS =>
    obtain ⟨m, hm, h⟩ := Option.bind_eq_some_iff.mp h
    obtain ⟨u', hu', he⟩ := Option.map_eq_some_iff.mp h
    cases he
    rw [hm]
    dsimp only
    rw [hu']
    dsimp only [MessageContext.callbacks]
    cases hc : contexts.lookup uuid with
    | none =>
      have hsame : Keyed.step MessageContext.next contexts (uuid, .process m) = contexts :=
        Keyed.step_same _ _ _ (by dsimp only; rw [hc]; rfl)
      rw [hsame]
    | some c =>
      have hstep : Keyed.step MessageContext.next contexts (uuid, .process m) =
          contexts.insert uuid {c with buffer := c.buffer ++ m.message} := by
        simp only [Keyed.step, MessageContext.next, hc, Option.map_some, HashMap.set]
      rw [hstep]
  case END =>
    obtain ⟨m, hm, h⟩ := Option.bind_eq_some_iff.mp h
    obtain ⟨u', hu', he⟩ := Option.map_eq_some_iff.mp h
    cases he
    rw [hm]
    dsimp only
    rw [hu']
    dsimp only [MessageContext.callbacks]
    cases hc : contexts.lookup uuid with
    | none =>
      have hsame : Keyed.step MessageContext.next contexts (uuid, .end m) = contexts :=
        Keyed.step_same _ _ _ (by dsimp only; rw [hc]; rfl)
      rw [hsame]
    | some c => rfl

/-- A string carries no frame that its header does not announce: what it does to
the map and the callbacks it makes, in both cases. -/
theorem dispatch_eq : messageDispatch P S cancels contexts data =
    match frameOf P data with
    | none => (contexts, malformed P data)
    | some (uuid, frame) => (Keyed.step MessageContext.next contexts (uuid, frame),
        MessageContext.callbacks S cancels (contexts.lookup uuid) uuid frame) := by
  cases h : frameOf P data with
  | none => exact dispatch_malformed h
  | some x => exact dispatch_frame h

/-- A frame written under a uuid, with the type of its kind, is handled as it was
written. -/
theorem frameOf_write (hP : P.Inverts) {frame : Frame} {uuid : Uuid}
    (huuid : frame.uuid = uuid.bytes) (htype : frame.fieldType = frame.kind) :
    frameOf P (P.writeToBytes frame) = some (uuid, frame) := by
  have hu : Uuid.fromSlice frame.uuid = some uuid := by rw [huuid, Uuid.fromSlice_bytes]
  rw [frameOf, hP.header, Option.bind_some]
  dsimp only [Frame.header]
  rw [hu, Option.bind_some, htype]
  cases frame with
  | oneshot m => simp only [Frame.kind, hP.oneshot, Option.map_some]
  | begin m =>
    simp only [Frame.kind, hP.begin, Option.bind_some]
    rw [show m.uuid = uuid.bytes from huuid, Uuid.fromSlice_bytes, Option.map_some]
  | process m =>
    simp only [Frame.kind, hP.process, Option.bind_some]
    rw [show m.uuid = uuid.bytes from huuid, Uuid.fromSlice_bytes, Option.map_some]
  | «end» m =>
    simp only [Frame.kind, hP.end, Option.bind_some]
    rw [show m.uuid = uuid.bytes from huuid, Uuid.fromSlice_bytes, Option.map_some]

/-! ### The callbacks, one by one -/

theorem progress_eq (cancels : ProgressContext → Bool) (pctx : ProgressContext) :
    progress cancels pctx = .onCallback (pctx.afterCallback cancels) ::
      if (pctx.afterCallback cancels).canceled then [.onCanceled (pctx.afterCallback cancels)]
      else [] := by
  simp only [progress]
  split <;> rfl

theorem mem_progress {pctx : ProgressContext} {callback : Callback} :
    callback ∈ progress cancels pctx ↔ callback = .onCallback (pctx.afterCallback cancels) ∨
      ((pctx.afterCallback cancels).canceled = true ∧
        callback = .onCanceled (pctx.afterCallback cancels)) := by
  rw [progress_eq, List.mem_cons]
  split <;> simp [*]

theorem mem_malformed {callback : Callback} (h : callback ∈ malformed P data) :
    callback = .onError .protobuf ∨ callback = .onError .uuid := by
  unfold malformed at h
  split at h
  · exact .inl (List.mem_singleton.mp h)
  · split at h
    · exact .inr (List.mem_singleton.mp h)
    · cases h

theorem malformed_nil_iff : malformed P data = [] ↔
    ∃ header uuid, P.parseHeader data = some header ∧ Uuid.fromSlice header.uuid = some uuid := by
  unfold malformed
  cases hh : P.parseHeader data with
  | none => simp
  | some header => cases hu : Uuid.fromSlice header.uuid <;> simp [hu]

theorem frameOf_header {uuid : Uuid} {frame : Frame} (h : frameOf P data = some (uuid, frame)) :
    ∃ header uuid, P.parseHeader data = some header ∧ Uuid.fromSlice header.uuid = some uuid := by
  unfold frameOf at h
  obtain ⟨header, hh, h⟩ := Option.bind_eq_some_iff.mp h
  obtain ⟨u, hu, -⟩ := Option.bind_eq_some_iff.mp h
  exact ⟨header, u, hh, hu⟩

/-! ### Whom a callback is for -/

variable {u : Uuid}

/-- The callback is for `u`. -/
def Callback.about (u : Uuid) : Callback → Bool
  | .onMessage v _ => v = u
  | .onCallback pctx => pctx.uuid = u
  | .onError (.snap v) => v = u
  | .onError _ => false
  | .onCanceled pctx => pctx.uuid = u

theorem malformed_about (data : Bytes) :
    ∀ callback ∈ malformed P data, callback.about u = false := by
  intro callback hmem
  obtain rfl | rfl := mem_malformed hmem <;> rfl

theorem afterCallback_uuid (cancels : ProgressContext → Bool) (pctx : ProgressContext) :
    (pctx.afterCallback cancels).uuid = pctx.uuid := by
  unfold ProgressContext.afterCallback
  split <;> rfl

theorem progress_about (cancels : ProgressContext → Bool) (pctx : ProgressContext) :
    ∀ callback ∈ progress cancels pctx, callback.about u = decide (pctx.uuid = u) := by
  intro callback hmem
  obtain rfl | ⟨-, rfl⟩ := mem_progress.mp hmem <;>
    simp only [Callback.about, afterCallback_uuid]

theorem callbacks_about (S : Snap) (cancels : ProgressContext → Bool)
    (context : Option MessageContext) (v : Uuid) (frame : Frame) :
    ∀ callback ∈ MessageContext.callbacks S cancels context v frame,
      callback.about u = decide (v = u) := by
  intro callback hmem
  cases frame with
  | oneshot m =>
    cases List.mem_singleton.mp hmem
    rfl
  | begin m => exact progress_about cancels _ callback hmem
  | process m =>
    cases context with
    | none => cases hmem
    | some c => exact progress_about cancels _ callback hmem
  | «end» m =>
    cases context with
    | none => cases hmem
    | some c =>
      simp only [MessageContext.callbacks] at hmem
      split at hmem
      · split at hmem
        · rcases List.mem_pair.mp hmem with rfl | rfl
          · simp only [Callback.about, afterCallback_uuid]
            rfl
          · rfl
        · cases List.mem_singleton.mp hmem
          rfl
      · cases hmem

end Wsmq
