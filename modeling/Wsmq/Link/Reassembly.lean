import Wsmq.Link.Delivery

/-! What the receiving end of a link holds and reports.

A context is never left over: it belongs to a transfer of some call of the other end, its
buffer is a beginning of the compressed stream and its total the stream's length
(`Reassembling`), and when all was read and no call is sending there is none
(`contexts_reassemble`). Progress is reported in bytes of that stream, as many of them as the
frames read by then brought (`progress_reported`). A peer that is not this library keeps none
of this. -/
namespace Wsmq
open Receiver

/-- The compressed stream of a message that is too long for one frame. -/
def Request.stream (S : Snap) : Request → Option Bytes
  | .bytes m => S.encode [m]
  | .message m => m.writes.bind S.encode

variable {S : Snap} {bandwidth : UInt64} {asked asked' : Ticket → Option Request} {u : Uuid}
  {x stream : Bytes}

/-! ### A transfer, cut anywhere -/

theorem decode_stream (hS : S.Inverts) {request : Request} (hx : request.payload = some x)
    (hstream : request.stream S = some stream) : S.decode stream = some x := by
  cases request with
  | bytes m =>
    cases hx
    obtain ⟨c, hc, hd⟩ := hS.decode_encode [x]
    cases hc.symm.trans hstream
    simpa using hd
  | message m =>
    obtain ⟨writes, hw, rfl⟩ := Option.map_eq_some_iff.mp hx
    obtain ⟨c, hc, hd⟩ := hS.decode_encode writes
    rw [Request.stream, hw, Option.bind_some, hc] at hstream
    cases hstream
    exact hd

/-- A message is sent as it is, or as its stream in chunks. -/
theorem sending_frames (hb : bandwidth ≠ 0) (u : Uuid) (request : Request) :
    (∃ err, request.sending S bandwidth u = .done (.err err)) ∨
      (∃ m, (request.sending S bandwidth u).frames = [oneshotFrame u m]) ∨
      ∃ stream, request.stream S = some stream ∧ (request.sending S bandwidth u).frames =
        beginFrame u stream.length ::
          (processFrames u 0 (Chunks.chunks bandwidth.toNat stream) ++ [endFrame u]) := by
  have hlarge : ∀ c, (SharedData.sendLargeBytes bandwidth u c).frames = beginFrame u c.length ::
      (processFrames u 0 (Chunks.chunks bandwidth.toNat c) ++ [endFrame u]) :=
    sendLargeBytes_frames hb
  cases request with
  | bytes m =>
    rw [Request.sending, Request.stream, SharedData.send]
    split
    · cases hc : S.encode [m] with
      | none => exact .inl ⟨_, rfl⟩
      | some c => exact .inr (.inr ⟨c, rfl, hlarge c⟩)
    · exact .inr (.inl ⟨m, rfl⟩)
  | message m =>
    rw [Request.sending, Request.stream, SharedData.sendMessage]
    cases hw : m.writes with
    | none => split <;> exact .inl ⟨_, rfl⟩
    | some writes =>
      dsimp only [Option.bind_some]
      split
      · cases hc : S.encode writes with
        | none => exact .inl ⟨_, rfl⟩
        | some c => exact .inr (.inr ⟨c, rfl, hlarge c⟩)
      · exact .inr (.inl ⟨_, rfl⟩)

theorem processFrames_split {ps rest : List Frame} {seq : UInt64} {chunks : List Bytes}
    (h : ps ++ rest = processFrames u seq chunks) : ∃ done todo seq', chunks = done ++ todo ∧
      ps = processFrames u seq done ∧ rest = processFrames u seq' todo := by
  induction ps generalizing seq chunks with
  | nil => exact ⟨[], chunks, seq, rfl, rfl, h⟩
  | cons f more ih =>
    cases chunks with
    | nil => cases h
    | cons chunk chunks =>
      rw [processFrames, List.cons_append] at h
      obtain ⟨rfl, hmore⟩ := List.cons.inj h
      obtain ⟨done, todo, seq', rfl, rfl, rfl⟩ := ih hmore
      exact ⟨chunk :: done, todo, seq', rfl, rfl, rfl⟩

/-- A chunked transfer that is not read to its end: nothing was read, or BEGIN and the first
chunks. -/
theorem transfer_split {past rest : List Frame} {length : Nat} {chunks : List Bytes}
    (h : past ++ rest = beginFrame u length :: (processFrames u 0 chunks ++ [endFrame u]))
    (hrest : rest ≠ []) : past = [] ∨ ∃ done todo seq, chunks = done ++ todo ∧
      past = beginFrame u length :: processFrames u 0 done ∧
      rest = processFrames u seq todo ++ [endFrame u] := by
  cases past with
  | nil => exact .inl rfl
  | cons f ps =>
    rw [List.cons_append] at h
    obtain ⟨rfl, hmore⟩ := List.cons.inj h
    obtain rfl | ⟨front, last, rfl⟩ := List.eq_nil_or_concat' rest
    · exact absurd rfl hrest
    · rw [← List.append_assoc] at hmore
      obtain ⟨hfront, hlast⟩ := List.append_inj' hmore rfl
      cases hlast
      obtain ⟨done, todo, seq, hchunks, rfl, rfl⟩ := processFrames_split hfront
      exact .inr ⟨done, todo, seq, hchunks, rfl, rfl⟩

theorem foldl_begun (length : Nat) (done : List Bytes) :
    (beginFrame u length :: processFrames u 0 done).foldl MessageContext.next none =
      some ⟨.SNAPPY, UInt64.ofNat length, done.flatten⟩ := by
  rw [List.foldl_cons, beginFrame, MessageContext.next, foldl_processFrames, List.nil_append]

theorem flatten_prefix {done todo : List Bytes} (hb : bandwidth ≠ 0)
    (h : Chunks.chunks bandwidth.toNat stream = done ++ todo) : done.flatten <+: stream := by
  refine ⟨todo.flatten, ?_⟩
  rw [← List.flatten_append, ← h, Chunks.flatten_chunks (toNat_pos hb)]

/-! ### Contexts -/

/-- The context is where the receiver stands with the stream of the call. -/
structure Reassembling (S : Snap) (asked : Ticket → Option Request) (u : Uuid)
    (context : MessageContext) (c : Ticket) (request : Request) (x stream : Bytes) : Prop where
  uuid_eq : c.uuid = u
  asked_for : asked c = some request
  payload_eq : request.payload = some x
  stream_eq : request.stream S = some stream
  decodes : S.decode stream = some x
  compression : context.compression = .SNAPPY
  total : context.totalLength = UInt64.ofNat stream.length
  buffer : context.buffer <+: stream

theorem UnderWay.reassembling (hS : S.Inverts) (hb : bandwidth ≠ 0) {context : MessageContext}
    (h : UnderWay S bandwidth asked context u) :
    ∃ c request x stream, Reassembling S asked u context c request x stream := by
  obtain ⟨past, rest, ⟨c, request, x, hu, hasked, hx, hcarries, hframes⟩, hrest, hcontext⟩ := h
  have hpast : past ≠ [] := by
    rintro rfl
    cases hcontext
  obtain ⟨err, heq⟩ | ⟨m, heq⟩ | ⟨stream, hstream, heq⟩ :=
    sending_frames (S := S) hb u request
  · rw [heq] at hframes
    exact absurd (List.append_eq_nil_iff.mp hframes.symm).1 hpast
  · -- A single frame cannot be read in part.
    rw [heq] at hframes
    have hlength := congrArg List.length hframes
    have h₁ := List.length_pos_iff.mpr hpast
    have h₂ := List.length_pos_iff.mpr hrest
    simp only [List.length_singleton, List.length_append] at hlength
    omega
  · rw [heq] at hframes
    obtain rfl | ⟨done, todo, seq, hchunks, rfl, -⟩ := transfer_split hframes.symm hrest
    · exact absurd rfl hpast
    · rw [foldl_begun] at hcontext
      cases hcontext
      exact ⟨c, request, x, stream, hu, hasked, hx, hstream, decode_stream hS hx hstream, rfl, rfl,
        flatten_prefix hb hchunks⟩

/-! ### Progress -/

/-- What has come of a transfer's stream, after one more frame of its uuid. -/
def Frame.brings (got : Bytes) : Frame → Bytes
  | .begin _ => []
  | .process m => got ++ m.message
  | _ => got

/-- The bytes that the frames bring under `u`: those since the last BEGIN. -/
def streamed (u : Uuid) (frames : List Frame) : Bytes := (framesOf u frames).foldl Frame.brings []

theorem streamed_own {frame : Frame} (hframe : frame.uuid = u.bytes) (frames : List Frame) :
    streamed u (frames ++ [frame]) = frame.brings (streamed u frames) := by
  rw [streamed, framesOf_own hframe, List.foldl_append]
  rfl

/-- **A context holds what the frames brought.** -/
theorem heard_buffer {P : Protobuf} {queue : List Frame} (hqueue : ∀ f ∈ queue, ∃ v : Uuid,
      f.uuid = v.bytes ∧ frameOf P (P.writeToBytes f) = some (v, f)) :
    ∀ {context}, (heard P S queue).1.lookup u = some context →
      context.buffer = streamed u queue := by
  induction queue using List.reverseRecOn with
  | nil =>
    intro context h
    cases (Finmap.lookup_empty u).symm.trans h
  | append_singleton queue frame ih =>
    intro context h
    obtain ⟨v, huuid, hframe⟩ := hqueue frame (by simp)
    have hbefore := fun {context} => @ih (fun f hf => hqueue f (by simp [hf])) context
    rw [(heard_snoc queue hframe).1, Keyed.lookup_step] at h
    split at h
    · rename_i hu
      subst hu
      rw [streamed_own huuid]
      cases frame with
      | oneshot m => exact hbefore h
      | begin m =>
        cases h
        rfl
      | process m =>
        obtain ⟨c, hc, rfl⟩ := Option.map_eq_some_iff.mp h
        rw [Frame.brings, ← hbefore hc]
      | «end» m => cases h
    · rw [streamed, framesOf_ne huuid ‹_›]
      exact hbefore h

/-- A report says how much of the stream of a call has come: nothing at BEGIN, all of it at
END. -/
structure Reported (S : Snap) (asked : Ticket → Option Request) (pctx : ProgressContext)
    (c : Ticket) (request : Request) (stream received : Bytes) : Prop where
  uuid_eq : c.uuid = pctx.uuid
  asked_for : asked c = some request
  stream_eq : request.stream S = some stream
  total : pctx.totalLength = UInt64.ofNat stream.length
  current : pctx.current = UInt64.ofNat received.length
  received_prefix : received <+: stream
  at_begin : pctx.method = .BEGIN → received = []
  at_end : pctx.method = .END → received = stream

theorem Reported.mono {pctx : ProgressContext} {c : Ticket} {request : Request} {received : Bytes}
    (h : Reported S asked pctx c request stream received)
    (hasked : ∀ c request, asked c = some request → asked' c = some request) :
    Reported S asked' pctx c request stream received :=
  {h with asked_for := hasked c request h.asked_for}

theorem afterCallback_fields (cancels : ProgressContext → Bool) (pctx : ProgressContext) :
    (pctx.afterCallback cancels).method = pctx.method ∧
      (pctx.afterCallback cancels).uuid = pctx.uuid ∧
      (pctx.afterCallback cancels).totalLength = pctx.totalLength ∧
      (pctx.afterCallback cancels).current = pctx.current := by
  unfold ProgressContext.afterCallback
  split <;> exact ⟨rfl, rfl, rfl, rfl⟩

/-- What the callbacks see is the context they are given, canceled or not. -/
theorem Reported.callback {pctx : ProgressContext} {c : Ticket} {request : Request}
    {received : Bytes} (h : Reported S asked pctx c request stream received)
    (cancels : ProgressContext → Bool) :
    Reported S asked (pctx.afterCallback cancels) c request stream received := by
  obtain ⟨hmethod, huuid, htotal, hcurrent⟩ := afterCallback_fields cancels pctx
  exact ⟨huuid ▸ h.uuid_eq, h.asked_for, h.stream_eq, htotal ▸ h.total, hcurrent ▸ h.current,
    h.received_prefix, fun hm => h.at_begin (hmethod ▸ hm), fun hm => h.at_end (hmethod ▸ hm)⟩

theorem onCallback_progress {cancels : ProgressContext → Bool} {pctx pctx' : ProgressContext}
    (h : .onCallback pctx ∈ progress cancels pctx') : pctx = pctx'.afterCallback cancels := by
  obtain heq | ⟨-, heq⟩ := mem_progress.mp h <;> cases heq
  rfl

theorem Continued.uuid_eq {context : Option MessageContext} {frame : Frame}
    (h : Continued S bandwidth asked context u frame) : frame.uuid = u.bytes := by
  obtain ⟨past, rest, ⟨_, _, x, _, _, _, hcarries, _⟩, _⟩ := h
  exact (hcarries.transfer.mem frame (by simp)).1

/-- **A frame that continues a transfer** reports what has come of its stream. -/
theorem Continued.reported (hb : bandwidth ≠ 0) {context : Option MessageContext} {frame : Frame}
    (h : Continued S bandwidth asked context u frame) {read : List Frame}
    (hbuffer : ∀ c, context = some c → c.buffer = streamed u read)
    {cancels : ProgressContext → Bool} {pctx : ProgressContext}
    (hpctx : .onCallback pctx ∈ MessageContext.callbacks S cancels context u frame) :
    ∃ c request stream, Reported S asked pctx c request stream
      (streamed pctx.uuid (read ++ [frame])) := by
  have hstreamed := streamed_own h.uuid_eq read
  obtain ⟨past, rest, ⟨c, request, x, hu, hasked, hx, hcarries, hframes⟩, hcontext⟩ := h
  -- It is enough to know the context that the callback was given.
  have hgiven : ∀ {stream received : Bytes} {method : FieldType} {total current : UInt64},
      pctx = .afterCallback cancels (.new method u total current) →
      frame.brings (streamed u read) = received →
      Reported S asked (.new method u total current) c request stream received →
      ∃ c request stream, Reported S asked pctx c request stream
        (streamed pctx.uuid (read ++ [frame])) := by
    intro stream received method total current heq hreceived hreported
    refine ⟨c, request, stream, ?_⟩
    have hcallback := hreported.callback cancels
    rw [← heq] at hcallback
    rw [← hcallback.uuid_eq, hu, hstreamed, hreceived]
    exact hcallback
  obtain ⟨err, heq⟩ | ⟨m, heq⟩ | ⟨stream, hstream, heq⟩ :=
    sending_frames (S := S) hb u request
  · rw [heq] at hframes
    simp [Sending.frames] at hframes
  · have hmem : frame ∈ (request.sending S bandwidth u).frames := by
      rw [hframes]
      simp
    rw [heq] at hmem
    cases List.mem_singleton.mp hmem
    cases List.mem_singleton.mp hpctx
  · rw [heq] at hframes
    obtain rfl | ⟨done, todo, seq, hchunks, rfl, hrest⟩ :=
      transfer_split hframes.symm (List.cons_ne_nil _ _)
    · -- BEGIN
      cases hframes
      exact hgiven (onCallback_progress hpctx) rfl ⟨hu, hasked, hstream, rfl, rfl,
        List.nil_prefix, fun _ => rfl, fun h => by cases h⟩
    · rw [foldl_begun] at hcontext
      have hdone : done.flatten = streamed u read := hbuffer _ hcontext
      rw [hcontext] at hpctx
      cases todo with
      | nil =>
        -- END
        cases hrest
        rw [List.append_nil] at hchunks
        obtain ⟨context', hcontext', -, -, heq⟩ := onCallback_end hpctx
        cases hcontext'
        have hall : streamed u read = stream := by
          rw [← hdone, ← hchunks, Chunks.flatten_chunks (toNat_pos hb)]
        exact hgiven heq hall ⟨hu, hasked, hstream, rfl, rfl, List.prefix_refl _,
          fun h => (by cases h), fun _ => rfl⟩
      | cons chunk todo =>
        cases hrest
        rw [List.append_cons] at hchunks
        have hmore : (done ++ [chunk]).flatten <+: stream := flatten_prefix hb hchunks
        rw [List.flatten_concat] at hmore
        exact hgiven (onCallback_progress hpctx) (by rw [← hdone]; rfl) ⟨hu, hasked, hstream, rfl,
          rfl, hmore, fun h => (by cases h), fun h => by cases h⟩

/-! ### Both ends -/

namespace Link
variable {l : Link} {s t : LinkState}

/-- **A context is never left over**: each is that of a transfer the other end has begun, and
there is none when everything was read and nothing is being sent. -/
theorem contexts_reassemble (hl : l.Proper) (h : l.Reachable s) (side : Side) :
    (∀ u context, (s.ends side).contexts.lookup u = some context → ∃ c request x stream,
      Reassembling l.snap (s.asked side.peer) u context c request x stream) ∧
    (s.read side = (s.ends side.peer).queue.length → (s.ends side.peer).task ≠ .ended →
      (∀ c rest, (s.ends side.peer).calls c ≠ .sending rest) → (s.ends side).contexts = ∅) := by
  have hspoken := (h.speaks hl side.peer).spoken
  have hcontexts := (h.hears hl side).contexts
  refine ⟨fun u context hlookup => ?_, fun hread hopen hidle => ?_⟩
  · rw [hcontexts] at hlookup
    exact (hspoken.underWay _ u context hlookup).reassembling hl.snap (hl.bandwidth side.peer)
  · apply Finmap.ext_lookup
    intro u
    rw [hcontexts, received, hread, List.take_length, Finmap.lookup_empty]
    exact hspoken.silent hopen u fun c rest _ => hidle c rest

/-- The server has read BEGIN and one chunk. -/
theorem contexts_reassemble_exchange : ∃ s, exampleLink.Reachable s ∧ ∃ context,
    (s.ends .server).contexts.lookup .nil = some context ∧ context.buffer.length = 16 ∧
    ∃ c request x stream, Reassembling .framed (s.asked .client) .nil context c request x stream := by
  obtain ⟨s, hs, hview⟩ := exchange_reachable 15
    (fun s => ((s.ends .server).contexts.lookup .nil).map fun context => context.buffer.length)
    (b := some 16) (by decide +kernel)
  obtain ⟨context, hcontext, hlength⟩ := Option.map_eq_some_iff.mp hview
  exact ⟨s, hs, context, hcontext, hlength,
    (contexts_reassemble exampleLink_proper hs .server).1 .nil context hcontext⟩

theorem Moves.asked_mono {a : LinkAction} (h : Moves l s a t) {side : Side}
    (hs : Speaks l s side) (c : Ticket) (request : Request)
    (hasked : s.asked side c = some request) : t.asked side c = some request := by
  cases h with
  | @act side' b u hb hend =>
    by_cases hside : side = side'
    · subst hside
      dsimp only
      obtain ⟨ev, hev⟩ := step_event hend hb
      rw [Function.update_self, hev.asks c (hs.spoken.asked_begun c request hasked), hasked]
    · dsimp only
      rw [Function.update_of_ne hside, hasked]
  | forward => exact hasked
  | receive => exact hasked

/-- What an end received are the frames it has read. -/
theorem Reachable.read_log (h : l.Reachable s) (side : Side) :
    receivedData (s.ends side).log = (received s side).map l.protobuf.writeToBytes := by
  apply h.invariant
  · simp [received, LinkState.init, State.init, receivedData]
  · intro s a t hreach ih _ hstep
    have horder := Reachable.inOrder hreach
    have hmoves := step_moves hstep
    have hqueue := hmoves.queue_prefix side.peer
    cases hmoves with
    | @act side' b u hb hend =>
      rw [received, received_of_grown horder hqueue, ← ih]
      dsimp only
      by_cases hside : side = side'
      · subst hside
        obtain ⟨ev, hev⟩ := step_event hend hb
        rw [Function.update_self, hev.log, receivedData_append, (hev.quiet hb).2, List.append_nil]
      · rw [Function.update_of_ne hside]
    | forward => exact ih
    | @receive side' cancels frame u hwritten hframe hfits hend =>
      by_cases hside : side = side'
      · subst hside
        obtain ⟨-, ⟨evs, hlog, hevs⟩, -⟩ := receive_events hend
        have hquiet : receivedData evs = [] :=
          receivedData_of_callbacks hevs (List.Subset.refl evs)
        rw [received_snoc hframe, List.map_append, ← ih]
        dsimp only
        rw [Function.update_self, hlog, List.append_cons, receivedData_append, hquiet,
          List.append_nil, receivedData_append]
        rfl
      · rw [← received_of_grown horder hqueue] at ih
        dsimp only [received] at ih ⊢
        rw [Function.update_of_ne hside, Function.update_of_ne hside, ih]

theorem Reachable.read_length (h : l.Reachable s) (side : Side) :
    (receivedData (s.ends side).log).length = s.read side := by
  rw [h.read_log, List.length_map, received, List.length_take_of_le]
  exact (h.inOrder.read_le side).trans (h.inOrder.written_le side.peer)

/-- The report of a frame when it is read. -/
theorem reported_of_read (hl : l.Proper) (h : l.Reachable s) {side : Side} {frame : Frame}
    (hframe : (s.ends side.peer).queue[s.read side]? = some frame)
    {cancels : ProgressContext → Bool} {pctx : ProgressContext}
    (hpctx : .onCallback pctx ∈ (messageDispatch l.protobuf l.snap cancels (s.ends side).contexts
      (l.protobuf.writeToBytes frame)).2) :
    ∃ c request stream, Reported l.snap (s.asked side.peer) pctx c request stream
      (streamed pctx.uuid ((s.ends side.peer).queue.take (s.read side + 1))) := by
  have hcontinued := (h.speaks hl side.peer).spoken.continued
  have hframes : ∀ f ∈ received s side, ∃ v : Uuid, f.uuid = v.bytes ∧
      frameOf l.protobuf (l.protobuf.writeToBytes f) = some (v, f) := by
    intro f hf
    obtain ⟨k, hk, rfl⟩ := List.getElem_of_mem (List.mem_of_mem_take hf)
    obtain ⟨w, hw, hnext⟩ := hcontinued k _ (List.getElem?_eq_getElem hk)
    exact ⟨w, hnext.uuid_eq, hw⟩
  obtain ⟨v, hv, hnext⟩ := hcontinued _ frame hframe
  replace hv : frameOf l.protobuf (l.protobuf.writeToBytes frame) = some (v, frame) := hv
  rw [dispatch_frame hv, (h.hears hl side).contexts] at hpctx
  rw [List.take_add_one, hframe]
  exact hnext.reported (hl.bandwidth side.peer) (fun _ hcontext => heard_buffer hframes hcontext)
    hpctx

/-- Where an entry stands in a log that has grown. -/
theorem append_split {a b before after : List Event} {ev : Event}
    (h : a ++ b = before ++ ev :: after) : (∃ rest, a = before ++ ev :: rest) ∨
      ∃ front, before = a ++ front ∧ b = front ++ ev :: after := by
  obtain ⟨front, rfl, hb⟩ | ⟨rest, rfl, hrest⟩ := List.append_eq_append_iff.mp h
  · exact .inr ⟨front, rfl, hb⟩
  · cases rest with
    | nil => exact .inr ⟨[], by simp, hrest.symm⟩
    | cons ev' rest =>
      cases hrest
      exact .inl ⟨rest, rfl⟩

/-- **Progress is of the stream that is sent**: a report gives as the current the number of bytes
that the frames read by then brought under its uuid, and these bytes are the beginning of the
stream of a call of the other end. -/
theorem progress_reported (hl : l.Proper) (h : l.Reachable s) (side : Side) :
    ∀ before after pctx, (s.ends side).log = before ++ .progressed pctx :: after →
      ∃ c request stream, Reported l.snap (s.asked side.peer) pctx c request stream
        (streamed pctx.uuid ((s.ends side.peer).queue.take (receivedData before).length)) := by
  apply h.invariant fun before after pctx hlog => by simp [LinkState.init, State.init] at hlog
  intro s a t hreach ih _ hstep before after pctx hlog
  have hmoves := step_moves hstep
  have hasked := hmoves.asked_mono (Reachable.speaks hl hreach side.peer)
  have hlength := Reachable.read_length hreach side
  have hread := ((Reachable.inOrder hreach).read_le side).trans
    ((Reachable.inOrder hreach).written_le side.peer)
  obtain ⟨more, hqueue⟩ := hmoves.queue_prefix side.peer
  -- A report that was there already.
  have hbefore : ∀ rest, (s.ends side).log = before ++ .progressed pctx :: rest →
      ∃ c request stream, Reported l.snap (t.asked side.peer) pctx c request stream
        (streamed pctx.uuid ((t.ends side.peer).queue.take (receivedData before).length)) := by
    intro rest hlog
    obtain ⟨c, request, stream, hreported⟩ := ih before rest pctx hlog
    rw [hlog, receivedData_append, List.length_append] at hlength
    rw [← hqueue, List.take_append_of_le_length (by omega)]
    exact ⟨c, request, stream, hreported.mono hasked⟩
  cases hmoves with
  | @act side' b u hb hend =>
    dsimp only at hlog
    by_cases hside : side = side'
    · subst hside
      obtain ⟨ev, hev⟩ := step_event hend hb
      rw [Function.update_self, hev.log] at hlog
      obtain ⟨-, -, rfl⟩ | ⟨rest, -, hold⟩ := snoc_split hlog
      · cases (hev.quiet hb).1
      · exact hbefore rest hold
    · rw [Function.update_of_ne hside] at hlog
      exact hbefore after hlog
  | forward => exact hbefore after hlog
  | @receive side' cancels frame u hwritten hframe hfits hend =>
    dsimp only at hlog
    by_cases hside : side = side'
    · subst hside
      obtain ⟨-, ⟨evs, hevents, hevs⟩, -⟩ := receive_events hend
      rw [Function.update_self, hevents, List.append_cons] at hlog
      obtain ⟨rest, hold⟩ | ⟨front, rfl, rfl⟩ := append_split hlog
      · obtain ⟨-, -, hnew⟩ | ⟨rest, -, hold⟩ := snoc_split hold
        · cases hnew
        · exact hbefore rest hold
      -- A report of the frame that is read: the frames read by then are one more.
      · have hquiet : receivedData front = [] :=
          receivedData_of_callbacks hevs (List.subset_append_left ..)
        obtain ⟨callback, hcallback, heq⟩ := hevs (.progressed pctx) (by simp)
        cases heq
        obtain ⟨c, request, stream, hreported⟩ := reported_of_read hl hreach hframe hcallback
        refine ⟨c, request, stream, ?_⟩
        rw [receivedData_append, hquiet, List.append_nil, receivedData_append, List.length_append,
          hlength]
        dsimp only
        rw [Function.update_of_ne (peer_ne side)]
        exact hreported
    · rw [Function.update_of_ne hside] at hlog
      exact hbefore after hlog

/-- The server has read BEGIN and one chunk of sixteen bytes. -/
theorem progress_reported_exchange : ∃ s, exampleLink.Reachable s ∧
    streamed .nil ((s.ends .client).queue.take 2) = (SnappyFrame.encode longMessage).take 16 ∧
    ∃ before, (s.ends .server).log = before ++ [.progressed ⟨.PROCESS, .nil, 35, 16, false⟩] ∧
      ∃ c request stream, Reported .framed (s.asked .client)
        ⟨.PROCESS, .nil, 35, 16, false⟩ c request stream
        (streamed .nil ((s.ends .client).queue.take (receivedData before).length)) := by
  obtain ⟨s, hs, hview⟩ := exchange_reachable 15
    (fun s => (streamed .nil ((s.ends .client).queue.take 2), (s.ends .server).log.getLast?))
    (b := ((SnappyFrame.encode longMessage).take 16,
      some (.progressed ⟨.PROCESS, .nil, 35, 16, false⟩))) (by decide +kernel)
  obtain ⟨hstreamed, hlast⟩ := Prod.mk.inj hview
  have hlog := (List.dropLast_append_getLast? _ hlast).symm
  exact ⟨s, hs, hstreamed, _, hlog,
    progress_reported exampleLink_proper hs .server _ [] _ hlog⟩

/-- **Neither end sees an error** in what the other sends: no frame that cannot be read, no
unknown transfer and no stream that does not decompress. -/
theorem no_errors (hl : l.Proper) (h : l.Reachable s) (side : Side) (err : DispatchError) :
    .errored err ∉ (s.ends side).log :=
  (h.hears hl side).sound err

theorem no_errors_exchange : ∃ s, exampleLink.Reachable s ∧ s.read .server = 5 ∧
    ∀ err, .errored err ∉ (s.ends .server).log := by
  obtain ⟨s, hs, hread⟩ := exchange_reachable 18 (fun s => s.read .server) (b := 5)
    (by decide +kernel)
  exact ⟨s, hs, hread, fun err => no_errors exampleLink_proper hs .server err⟩

end Link
end Wsmq
