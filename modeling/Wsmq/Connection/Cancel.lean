import Wsmq.Connection.Server
import Wsmq.Receiver.History

/-! What becomes of a transfer whose progress callback cancels it.

The dispatcher looks at `canceled` after the callbacks for BEGIN and PROCESS and calls
the connection's own handler, not after the one for END. On the server the handler ends
the read loop; on the client it does nothing. `Abandoned` is what a cancellation
promises, read off the log: the buffer stays as it was, and no END of the transfer
delivers. It holds in the runs that do not cancel at END and in which, on the client, the
peer sends nothing more for the transfer that would count (`canceled_abandoned`). -/
namespace Wsmq

/-! ### What was received -/

def receivedData (log : List Event) : List Bytes :=
  log.filterMap fun
    | .received data => some data
    | _ => none

/-- The frames of `u` among what was received. -/
def receivedFrames (P : Protobuf) (u : Uuid) (log : List Event) : List Frame :=
  Keyed.eventsOf u (Receiver.frames P (receivedData log))

/-- The context these frames leave. -/
def contextAt (P : Protobuf) (u : Uuid) (log : List Event) : Option MessageContext :=
  (receivedFrames P u log).foldl MessageContext.next none

/-- The frame that is being handled. -/
def lastFrame (P : Protobuf) (log : List Event) : Option (Uuid × Frame) :=
  (receivedData log).getLast?.bind (frameOf P)

variable {e : Endpoint} {Allowed : State → Action → Prop} {s t : State} {P : Protobuf} {u : Uuid}

theorem receivedData_append (a b : List Event) :
    receivedData (a ++ b) = receivedData a ++ receivedData b :=
  List.filterMap_append

theorem receivedFrames_append (P : Protobuf) (u : Uuid) (a b : List Event) :
    receivedFrames P u (a ++ b) = receivedFrames P u a ++ receivedFrames P u b := by
  rw [receivedFrames, receivedData_append, Receiver.frames, List.filterMap_append,
    Keyed.eventsOf_append]
  rfl

theorem contextAt_append (P : Protobuf) (u : Uuid) (a b : List Event) :
    contextAt P u (a ++ b) =
      (receivedFrames P u b).foldl MessageContext.next (contextAt P u a) := by
  rw [contextAt, receivedFrames_append, List.foldl_append]
  rfl

theorem receivedFrames_quiet {l : List Event} (h : receivedData l = []) :
    receivedFrames P u l = [] := by
  rw [receivedFrames, h]
  rfl

/-- One string, and the events of its callbacks. -/
theorem receivedFrames_received {data : Bytes} {evs : List Event} (h : receivedData evs = []) :
    receivedFrames P u (.received data :: evs) =
      Keyed.eventsOf u (frameOf P data).toList := by
  have hdata : receivedData (.received data :: evs) = [data] := by
    show data :: receivedData evs = _
    rw [h]
  rw [receivedFrames, hdata, Receiver.frames_cons]
  exact congrArg (Keyed.eventsOf u) (List.append_nil _)

theorem History.contexts (h : History e Allowed s) (u : Uuid) :
    s.contexts.lookup u = contextAt e.protobuf u s.log := by
  induction h with
  | init => rfl
  | event hs ha hev ih =>
    rw [hev.log, contextAt_append, ← ih]
    cases hev with
    | received htask =>
      rw [receivedFrames_received rfl, dispatch_eq]
      cases hf : frameOf e.protobuf _ with
      | none => rfl
      | some x =>
        obtain ⟨v, frame⟩ := x
        dsimp only
        show (Keyed.step MessageContext.next _ (v, frame)).lookup u = _
        rw [Keyed.lookup_step]
        by_cases hu : u = v
        · subst hu
          rw [if_pos rfl, Option.toList_some, Keyed.eventsOf_cons_self]
          rfl
        · rw [if_neg hu, Option.toList_some, Keyed.eventsOf_cons_ne (Ne.symm hu)]
          rfl
    | _ => rfl

/-! ### The events of a step -/

/-- The callback that the event records. -/
def Event.callback : Event → Option Callback
  | .delivered u x _ => some (.onMessage u x)
  | .progressed pctx => some (.onCallback pctx)
  | .errored err => some (.onError err)
  | .canceled pctx => some (.onCanceled pctx)
  | _ => none

theorem receivedData_callbacks {evs : List Event} (h : ∀ ev ∈ evs, ev.callback ≠ none) :
    receivedData evs = [] := by
  unfold receivedData
  apply List.filterMap_eq_nil_iff.mpr
  intro ev hmem
  cases ev with
  | received data => exact absurd rfl (h _ hmem)
  | _ => rfl

/-- Outside a received message nothing is called back and nothing received. -/
theorem Occurs.quiet {a : Action} {ev : Event} (h : Occurs e s a ev t) (ha : ¬ a.isReceive) :
    ev.callback = none ∧ receivedData [ev] = [] := by
  cases h with
  | received | progressed | errored | canceled | handed | delivered | deliverFailed =>
    exact absurd trivial ha
  | _ => exact ⟨rfl, rfl⟩

/-- The task does not start again. -/
theorem Occurs.still_running {a : Action} {ev : Event} (h : Occurs e s a ev t)
    (ht : t.task = .running) : s.task = .running := by
  cases h with
  | canceled | selected | clearWoke | clearWakePanicked | clearEmptied | clearEmptyPanicked
  | receiverDropped | aborted => cases ht
  | _ => exact ht

theorem handle_events {callback : Callback} (h : handle e s callback = some t) :
    (∃ evs, t.log = s.log ++ evs ∧ ∀ ev ∈ evs, ev.callback = some callback) ∧
      (t.task = .running → s.task = .running) ∧
      (e.side = .server → ∀ pctx, callback = .onCanceled pctx → t.task ≠ .running) := by
  have hrecorded : ∀ {s' : State} {ev : Event}, ev.callback = some callback →
      s'.log = s.log → ∃ evs, (s'.record ev).log = s.log ++ evs ∧
        ∀ ev ∈ evs, ev.callback = some callback := by
    intro s' ev hev hlog
    refine ⟨[ev], by rw [State.record_log, hlog], fun ev' hmem => ?_⟩
    cases List.mem_singleton.mp hmem
    exact hev
  cases callback with
  | onMessage u x =>
    simp only [handle] at h
    split at h
    · cases h
      exact ⟨hrecorded rfl rfl, id, fun _ pctx h => by cases h⟩
    · split at h <;> cases h
      · exact ⟨hrecorded rfl rfl, id, fun _ pctx h => by cases h⟩
      · exact ⟨hrecorded rfl rfl, id, fun _ pctx h => by cases h⟩
  | onCallback pctx =>
    cases h
    exact ⟨hrecorded rfl rfl, id, fun _ pctx h => by cases h⟩
  | onError err =>
    cases h
    exact ⟨hrecorded rfl rfl, id, fun _ pctx h => by cases h⟩
  | onCanceled pctx =>
    simp only [handle] at h
    split at h
    · rename_i hside
      cases h
      refine ⟨⟨[], (List.append_nil _).symm, fun ev hmem => by cases hmem⟩, id, fun hserver => ?_⟩
      cases hside.symm.trans hserver
    · cases h
      exact ⟨hrecorded rfl rfl, (fun h => by cases h), fun _ _ _ => by simp⟩

theorem handles_events {callbacks : List Callback} (h : callbacks.foldlM (handle e) s = some t) :
    (∃ evs, t.log = s.log ++ evs ∧ ∀ ev ∈ evs, ∃ callback ∈ callbacks,
        ev.callback = some callback) ∧
      (t.task = .running → s.task = .running) ∧
      (e.side = .server → ∀ pctx, .onCanceled pctx ∈ callbacks → t.task ≠ .running) := by
  induction callbacks generalizing s with
  | nil =>
    cases h
    exact ⟨⟨[], (List.append_nil _).symm, fun ev hmem => by cases hmem⟩, id,
      fun _ _ hmem => by cases hmem⟩
  | cons callback rest ih =>
    rw [List.foldlM_cons] at h
    obtain ⟨between, hfirst, hrest⟩ := Option.bind_eq_some_iff.mp h
    obtain ⟨⟨evs, hlog, hevs⟩, htask, hcanceled⟩ := handle_events hfirst
    obtain ⟨⟨evs', hlog', hevs'⟩, htask', hcanceled'⟩ := ih hrest
    refine ⟨⟨evs ++ evs', ?_, fun ev hmem => ?_⟩, fun ht => htask (htask' ht),
      fun hserver pctx hmem ht => ?_⟩
    · rw [hlog', hlog, List.append_assoc]
    · rcases List.mem_append.mp hmem with hmem | hmem
      · exact ⟨callback, List.mem_cons_self .., hevs ev hmem⟩
      · obtain ⟨callback', hmem', heq⟩ := hevs' ev hmem
        exact ⟨callback', List.mem_cons_of_mem _ hmem', heq⟩
    · rcases List.mem_cons.mp hmem with rfl | hmem
      · exact hcanceled hserver pctx rfl (htask' ht)
      · exact hcanceled' hserver pctx hmem ht

/-- **A received message** adds to the log the string and the events of its callbacks. -/
theorem receive_events {m : WsMessage} {cancels : ProgressContext → Bool}
    (h : step e s (.receive m cancels) = some t) :
    let callbacks := (messageDispatch e.protobuf e.snap cancels s.contexts m.intoData).2
    s.task = .running ∧
      (∃ evs, t.log = s.log ++ .received m.intoData :: evs ∧
        ∀ ev ∈ evs, ∃ callback ∈ callbacks, ev.callback = some callback) ∧
      (e.side = .server → ∀ pctx, .onCanceled pctx ∈ callbacks → t.task ≠ .running) := by
  simp only [step] at h
  split at h
  · rename_i htask
    obtain ⟨⟨evs, hlog, hevs⟩, -, hcanceled⟩ := handles_events h
    refine ⟨htask, ⟨evs, ?_, hevs⟩, hcanceled⟩
    rw [hlog, State.record_log, List.append_assoc]
    rfl
  · cases h

/-! ### The callbacks of a frame -/

/-- What is reported at END. -/
theorem onCallback_end {S : Snap} {cancels : ProgressContext → Bool}
    {context : Option MessageContext} {m : End} {pctx : ProgressContext}
    (h : .onCallback pctx ∈ MessageContext.callbacks S cancels context u (.end m)) :
    ∃ c, context = some c ∧ c.compression = .SNAPPY ∧ S.decode c.buffer ≠ none ∧
      pctx = .afterCallback cancels (.new .END u c.totalLength c.totalLength) := by
  cases context with
  | none => cases h
  | some c =>
    simp only [MessageContext.callbacks] at h
    split at h
    · rename_i hsnappy
      split at h
      · rename_i x hdecode
        rcases List.mem_pair.mp h with heq | heq <;> cases heq
        exact ⟨c, rfl, hsnappy, by rw [hdecode]; simp, rfl⟩
      · cases List.mem_singleton.mp h
    · cases h

theorem afterCallback_canceled (cancels : ProgressContext → Bool) (method : FieldType) (u : Uuid)
    (total current : UInt64) :
    (ProgressContext.afterCallback cancels (.new method u total current)).canceled =
      cancels (.new method u total current) := by
  unfold ProgressContext.afterCallback
  split
  · rename_i h
    rw [h]
    rfl
  · rename_i h
    rw [Bool.eq_false_of_not_eq_true h]
    rfl

theorem onCanceled_progress {cancels : ProgressContext → Bool} {pctx pctx' : ProgressContext}
    (h : .onCallback pctx ∈ progress cancels pctx') (hcanceled : pctx.canceled = true) :
    .onCanceled pctx ∈ progress cancels pctx' := by
  obtain heq | ⟨-, heq⟩ := mem_progress.mp h <;> cases heq
  exact mem_progress.mpr (.inr ⟨hcanceled, rfl⟩)

theorem no_progress_malformed (data : Bytes) (pctx : ProgressContext) :
    .onCallback pctx ∉ malformed P data := by
  intro h
  obtain heq | heq := mem_malformed h <;> cases heq

/-- A cancellation is handled, unless it comes at END. -/
theorem onCanceled_callbacks {S : Snap} {cancels : ProgressContext → Bool}
    {context : Option MessageContext} {frame : Frame} {pctx : ProgressContext}
    (h : .onCallback pctx ∈ MessageContext.callbacks S cancels context u frame)
    (hcanceled : pctx.canceled = true) :
    .onCanceled pctx ∈ MessageContext.callbacks S cancels context u frame ∨
      ∃ m, frame = .end m := by
  cases frame with
  | oneshot m => cases List.mem_singleton.mp h
  | begin m => exact .inl (onCanceled_progress h hcanceled)
  | process m =>
    cases context with
    | none => cases h
    | some c => exact .inl (onCanceled_progress h hcanceled)
  | «end» m => exact .inr ⟨m, rfl⟩

/-! ### What a cancellation promises -/

/-- Over the stretch `b` after `a` the buffer of `u` stays as it was, and no END of `u`
delivers. -/
structure Silent (P : Protobuf) (u : Uuid) (a b : List Event) : Prop where
  buffer : ∀ c', contextAt P u (a ++ b) = some c' →
    ∃ c, contextAt P u a = some c ∧ c'.buffer = c.buffer
  delivered : ∀ b₁ x outcome b₂ m, b = b₁ ++ .delivered u x outcome :: b₂ →
    lastFrame P (a ++ b₁) ≠ some (u, .end m)

/-- **What a cancellation promises**: after it, and until the uuid begins another transfer,
the buffer stays as it was and no END of the uuid delivers. -/
def Abandoned (P : Protobuf) (log : List Event) : Prop :=
  ∀ a pctx b rest, log = a ++ .progressed pctx :: (b ++ rest) → pctx.canceled = true →
    (∀ m, .begin m ∉ receivedFrames P pctx.uuid b) → Silent P pctx.uuid a (.progressed pctx :: b)

/-- The transfer of `u` was cancelled, and no other has begun since. -/
def CanceledSince (P : Protobuf) (u : Uuid) (log : List Event) : Prop :=
  ∃ a pctx b, log = a ++ .progressed pctx :: b ∧ pctx.uuid = u ∧ pctx.canceled = true ∧
    ∀ m, .begin m ∉ receivedFrames P u b

/-- The frame adds nothing to the buffer and delivers nothing of it. -/
def Idle (S : Snap) (context : Option MessageContext) : Frame → Prop
  | .process m => context = none ∨ m.message = []
  | .end _ => ∀ c, context = some c → c.compression = .SNAPPY → S.decode c.buffer = none
  | _ => True

/-- No callback cancels at END, and on the client a cancelled transfer is sent no more
payload and no END that decodes. -/
def CancelsHeeded (e : Endpoint) (s : State) : Action → Prop
  | .receive message cancels =>
    ∀ u frame, frameOf e.protobuf message.intoData = some (u, frame) →
      (∀ m c, frame = .end m → s.contexts.lookup u = some c → c.compression = .SNAPPY →
        e.snap.decode c.buffer ≠ none →
        cancels (.new .END u c.totalLength c.totalLength) = false) ∧
      (e.side = .client → CanceledSince e.protobuf u s.log →
        Idle e.snap (s.contexts.lookup u) frame)
  | _ => True

/-! ### More events -/

/-- Where an event and the stretch after it lie when a log grows. -/
theorem split_append {l new a b rest : List Event} {ev : Event}
    (h : l ++ new = a ++ ev :: (b ++ rest)) :
    (∃ rest', l = a ++ ev :: (b ++ rest')) ∨
      (∃ before n, l = a ++ ev :: before ∧ b = before ++ n ∧ new = n ++ rest) ∨
      ∃ n, a = l ++ n ∧ new = n ++ ev :: (b ++ rest) := by
  rcases List.append_eq_append_iff.mp h with ⟨n, rfl, hnew⟩ | ⟨tail, rfl, htail⟩
  · exact .inr (.inr ⟨n, rfl, hnew⟩)
  · cases tail with
    | nil => exact .inr (.inr ⟨[], (List.append_nil _).symm ▸ (List.append_nil _).symm, htail.symm⟩)
    | cons ev' tail =>
      obtain ⟨rfl, hrest⟩ := List.cons.inj htail
      rcases List.append_eq_append_iff.mp hrest with ⟨n, rfl, -⟩ | ⟨n, rfl, hnew⟩
      · exact .inl ⟨n, rfl⟩
      · exact .inr (.inl ⟨tail, n, rfl, rfl, hnew⟩)

/-- One stretch after another. -/
theorem Silent.append {a b b' : List Event} (h : Silent P u a b) (h' : Silent P u (a ++ b) b') :
    Silent P u a (b ++ b') := by
  refine ⟨fun c' hc' => ?_, fun b₁ x outcome b₂ m hsplit => ?_⟩
  · rw [← List.append_assoc] at hc'
    obtain ⟨c₀, hc₀, heq₀⟩ := h'.buffer c' hc'
    obtain ⟨c, hc, heq⟩ := h.buffer c₀ hc₀
    exact ⟨c, hc, heq₀.trans heq⟩
  · obtain ⟨n, rfl, hn⟩ | ⟨tail, rfl, htail⟩ := List.append_eq_append_iff.mp hsplit
    · rw [← List.append_assoc]
      exact h'.delivered n x outcome b₂ m hn
    · cases tail with
      | nil =>
        have hfirst := h'.delivered [] x outcome b₂ m htail.symm
        rw [List.append_nil, List.append_nil] at hfirst
        exact hfirst
      | cons ev tail =>
        obtain ⟨rfl, -⟩ := List.cons.inj htail
        exact h.delivered b₁ x outcome tail m rfl

/-- What new events owe to the transfers that were cancelled before them, and to those
cancelled among them. -/
theorem Abandoned.append {l new : List Event} (h : Abandoned P l)
    (hold : ∀ u, CanceledSince P u l → ∀ n r, new = n ++ r →
      (∀ m, .begin m ∉ receivedFrames P u n) → Silent P u l n)
    (hnew : ∀ n pctx b r, new = n ++ .progressed pctx :: (b ++ r) → pctx.canceled = true →
      Silent P pctx.uuid (l ++ n) (.progressed pctx :: b)) :
    Abandoned P (l ++ new) := by
  intro a pctx b rest hlog hcanceled hbegin
  obtain ⟨rest', hl⟩ | ⟨before, n, hl, rfl, hsplit⟩ | ⟨n, rfl, hsplit⟩ := split_append hlog
  · exact h a pctx b rest' hl hcanceled hbegin
  · -- The stretch goes on from the old log into the new events.
    rw [receivedFrames_append] at hbegin
    have hbefore : ∀ m, .begin m ∉ receivedFrames P pctx.uuid before :=
      fun m hmem => hbegin m (List.mem_append_left _ hmem)
    have hafter : Silent P pctx.uuid l n :=
      hold pctx.uuid ⟨a, pctx, before, hl, rfl, hcanceled, hbefore⟩ n rest hsplit
        fun m hmem => hbegin m (List.mem_append_right _ hmem)
    rw [hl] at hafter
    refine Silent.append (h a pctx before [] ?_ hcanceled hbefore) hafter
    rw [List.append_nil]
    exact hl
  · exact hnew n pctx b rest hsplit hcanceled

theorem lastFrame_quiet {a b : List Event} (h : receivedData b = []) :
    lastFrame P (a ++ b) = lastFrame P a := by
  rw [lastFrame, receivedData_append, h, List.append_nil]
  rfl

/-- Events that receive nothing change no buffer. -/
theorem silent_of_quiet {a b : List Event} (hquiet : receivedData b = [])
    (hdelivered : ∀ x outcome, .delivered u x outcome ∈ b → ∀ m,
      lastFrame P a ≠ some (u, .end m)) : Silent P u a b := by
  refine ⟨fun c' hc' => ⟨c', ?_, rfl⟩, fun b₁ x outcome b₂ m hsplit => ?_⟩
  · rw [contextAt_append, receivedFrames_quiet hquiet] at hc'
    exact hc'
  · rw [hsplit, receivedData_append] at hquiet
    rw [lastFrame_quiet (List.append_eq_nil_iff.mp hquiet).1]
    exact hdelivered x outcome (by rw [hsplit]; simp) m

theorem lastFrame_received {l evs : List Event} {data : Bytes} (h : receivedData evs = []) :
    lastFrame P (l ++ .received data :: evs) = frameOf P data := by
  have hdata : receivedData (.received data :: evs) = [data] := by
    show data :: receivedData evs = _
    rw [h]
  rw [lastFrame, receivedData_append, hdata, List.getLast?_append]
  rfl

/-- An idle frame leaves the buffer, or ends the transfer. -/
theorem idle_next {S : Snap} {context : Option MessageContext} {frame : Frame}
    (hidle : Idle S context frame) (hbegin : ∀ m, frame ≠ .begin m) {c' : MessageContext}
    (hc' : MessageContext.next context frame = some c') :
    ∃ c, context = some c ∧ c'.buffer = c.buffer := by
  cases frame with
  | oneshot m => exact ⟨c', hc', rfl⟩
  | begin m => exact absurd rfl (hbegin m)
  | process m =>
    obtain ⟨c, hc, rfl⟩ := Option.map_eq_some_iff.mp hc'
    refine ⟨c, hc, ?_⟩
    rcases hidle with hnone | hempty
    · cases hnone.symm.trans hc
    · show c.buffer ++ m.message = _
      rw [hempty, List.append_nil]
  | «end» m => cases hc'

/-! ### One received message -/

theorem receivedData_of_callbacks {callbacks : List Callback} {evs l : List Event}
    (hevs : ∀ ev ∈ evs, ∃ callback ∈ callbacks, ev.callback = some callback) (hl : l ⊆ evs) :
    receivedData l = [] := by
  apply receivedData_callbacks
  intro ev hmem
  obtain ⟨callback, -, hcallback⟩ := hevs ev (hl hmem)
  rw [hcallback]
  simp

/-- A string whose frame is idle leaves the buffer. -/
theorem silent_of_idle (hs : History e Allowed s) {data : Bytes}
    (hidle : ∀ frame, frameOf e.protobuf data = some (u, frame) →
      Idle e.snap (s.contexts.lookup u) frame)
    (hbegin : ∀ m, .begin m ∉ receivedFrames e.protobuf u [.received data]) :
    Silent e.protobuf u s.log [.received data] := by
  refine ⟨fun c' hc' => ?_, fun b₁ x outcome b₂ m hsplit => ?_⟩
  · rw [receivedFrames_received rfl] at hbegin
    rw [contextAt_append, receivedFrames_received rfl, ← hs.contexts] at hc'
    rw [← hs.contexts]
    cases hf : frameOf e.protobuf data with
    | none =>
      rw [hf] at hc'
      exact ⟨c', hc', rfl⟩
    | some f =>
      obtain ⟨v, frame⟩ := f
      rw [hf, Option.toList_some] at hc' hbegin
      by_cases hv : v = u
      · subst hv
        rw [Keyed.eventsOf_cons_self] at hc' hbegin
        exact idle_next (hidle frame hf) (fun m heq => hbegin m (heq ▸ List.mem_cons_self ..)) hc'
      · rw [Keyed.eventsOf_cons_ne hv] at hc'
        exact ⟨c', hc', rfl⟩
  · have hmem : .delivered u x outcome ∈ [Event.received data] := by
      rw [hsplit]
      simp
    cases List.mem_singleton.mp hmem

/-- An END that is idle delivers nothing. -/
theorem not_end_of_idle {cancels : ProgressContext → Bool} {contexts : Contexts} {S : Snap}
    {data : Bytes} {x : Bytes} (hidle : ∀ frame, frameOf P data = some (u, frame) →
      Idle S (contexts.lookup u) frame)
    (hmem : .onMessage u x ∈ (messageDispatch P S cancels contexts data).2) (m : End) :
    frameOf P data ≠ some (u, .end m) := by
  intro hend
  obtain ⟨frame, hframe, hx⟩ := Receiver.mem_dispatch.mp hmem
  cases hend.symm.trans hframe
  obtain ⟨c, hc, hsnappy, hdecode⟩ := Receiver.delivered_end.mp hx
  cases (hidle _ hframe c hc hsnappy).symm.trans hdecode

/-- The callback that cancelled was not the one for END. -/
theorem not_end_of_heeded {cancels : ProgressContext → Bool} {message : WsMessage}
    (ha : CancelsHeeded e s (.receive message cancels)) {pctx : ProgressContext}
    (hmem : .onCallback pctx ∈
      (messageDispatch e.protobuf e.snap cancels s.contexts message.intoData).2)
    (hcanceled : pctx.canceled = true) (v : Uuid) (m : End) :
    frameOf e.protobuf message.intoData ≠ some (v, .end m) := by
  intro hend
  rw [dispatch_frame hend] at hmem
  obtain ⟨c, hc, hsnappy, hdecode, rfl⟩ := onCallback_end (m := m) hmem
  rw [afterCallback_canceled, (ha v _ hend).1 m c rfl hc hsnappy hdecode] at hcanceled
  cases hcanceled

/-- A transfer that was cancelled before the message. -/
theorem silent_before (hs : History e Allowed s) {message : WsMessage}
    {cancels : ProgressContext → Bool} (hidle : ∀ frame,
      frameOf e.protobuf message.intoData = some (u, frame) →
      Idle e.snap (s.contexts.lookup u) frame)
    {evs n r : List Event} (hevs : ∀ ev ∈ evs, ∃ callback ∈
      (messageDispatch e.protobuf e.snap cancels s.contexts message.intoData).2,
      ev.callback = some callback)
    (hsplit : .received message.intoData :: evs = n ++ r)
    (hbegin : ∀ m, .begin m ∉ receivedFrames e.protobuf u n) : Silent e.protobuf u s.log n := by
  cases n with
  | nil => exact silent_of_quiet rfl fun x outcome hmem => by cases hmem
  | cons ev evs₁ =>
    have hhead := (List.cons.inj hsplit).1
    have htail : evs = evs₁ ++ r := (List.cons.inj hsplit).2
    subst hhead
    have hsub : evs₁ ⊆ evs := htail ▸ List.subset_append_left _ _
    have hquiet := receivedData_of_callbacks hevs hsub
    rw [receivedFrames_received hquiet] at hbegin
    have hfirst : Silent e.protobuf u s.log [.received message.intoData] := by
      apply silent_of_idle hs hidle
      rw [receivedFrames_received rfl]
      exact hbegin
    refine hfirst.append (silent_of_quiet hquiet fun x outcome hmem => ?_)
    rw [lastFrame_received rfl]
    obtain ⟨callback, hcallback, heq⟩ := hevs _ (hsub hmem)
    cases heq
    exact not_end_of_idle hidle hcallback

/-- A transfer that is cancelled in the message. -/
theorem silent_within {message : WsMessage} {cancels : ProgressContext → Bool}
    (ha : CancelsHeeded e s (.receive message cancels)) {evs n b r : List Event}
    (hevs : ∀ ev ∈ evs, ∃ callback ∈
      (messageDispatch e.protobuf e.snap cancels s.contexts message.intoData).2,
      ev.callback = some callback) {pctx : ProgressContext} (hcanceled : pctx.canceled = true)
    (hsplit : .received message.intoData :: evs = n ++ .progressed pctx :: (b ++ r)) :
    Silent e.protobuf pctx.uuid (s.log ++ n) (.progressed pctx :: b) := by
  cases n with
  | nil => cases (List.cons.inj hsplit).1
  | cons ev evs₁ =>
    have hhead := (List.cons.inj hsplit).1
    have htail : evs = evs₁ ++ .progressed pctx :: (b ++ r) := (List.cons.inj hsplit).2
    subst hhead
    have hbefore : evs₁ ⊆ evs := htail ▸ List.subset_append_left _ _
    have hafter : .progressed pctx :: b ⊆ evs := by
      rw [htail]
      exact List.subset_append_of_subset_right _ (List.cons_subset_cons _ (List.subset_append_left ..))
    obtain ⟨callback, hcallback, heq⟩ := hevs _ (hafter (List.mem_cons_self ..))
    cases heq
    apply silent_of_quiet (receivedData_of_callbacks hevs hafter)
    intro x outcome hmem m
    rw [lastFrame_received (receivedData_of_callbacks hevs hbefore)]
    exact not_end_of_heeded ha hcallback hcanceled _ m

/-- **One received message**, when the cancellations before it and in it are heeded. -/
theorem Abandoned.receive (hs : History e Allowed s) (h : Abandoned e.protobuf s.log)
    (hserver : e.side = .server → ∀ u, ¬ CanceledSince e.protobuf u s.log) {message : WsMessage}
    {cancels : ProgressContext → Bool} (ha : CancelsHeeded e s (.receive message cancels))
    {evs : List Event} (hevs : ∀ ev ∈ evs, ∃ callback ∈
      (messageDispatch e.protobuf e.snap cancels s.contexts message.intoData).2,
      ev.callback = some callback) :
    Abandoned e.protobuf (s.log ++ .received message.intoData :: evs) := by
  apply h.append
  · intro u hcanceled n r hsplit hbegin
    refine silent_before hs (fun frame hframe => ?_) hevs hsplit hbegin
    cases hside : e.side with
    | client => exact (ha u frame hframe).2 hside hcanceled
    | server => exact absurd hcanceled (hserver hside u)
  · intro n pctx b r hsplit hcanceled
    exact silent_within ha hevs hcanceled hsplit

/-! ### Whole runs -/

/-- On the server a cancelled transfer has ended the read loop. -/
def StopsReading (e : Endpoint) (s : State) : Prop :=
  e.side = .server → ∀ pctx, .progressed pctx ∈ s.log → pctx.canceled = true → s.task ≠ .running

theorem StopsReading.not_canceledSince (h : StopsReading e s) (htask : s.task = .running)
    (hside : e.side = .server) (u : Uuid) : ¬ CanceledSince P u s.log := by
  intro hcanceled
  obtain ⟨a, pctx, b, hlog, -, hcanceled, -⟩ := hcanceled
  exact h hside pctx (by rw [hlog]; simp) hcanceled htask

theorem Abandoned.quiet {l : List Event} (h : Abandoned P l) {ev : Event}
    (hcallback : ev.callback = none) (hquiet : receivedData [ev] = []) :
    Abandoned P (l ++ [ev]) := by
  apply h.append
  · intro u hcanceled n r hsplit hbegin
    rw [hsplit, receivedData_append] at hquiet
    refine silent_of_quiet (List.append_eq_nil_iff.mp hquiet).1 fun x outcome hmem => ?_
    have hmem : .delivered u x outcome ∈ [ev] := by
      rw [hsplit]
      exact List.mem_append_left _ hmem
    cases List.mem_singleton.mp hmem
    cases hcallback
  · intro n pctx b r hsplit hcanceled
    have hmem : .progressed pctx ∈ [ev] := by
      rw [hsplit]
      simp
    cases List.mem_singleton.mp hmem
    cases hcallback

theorem abandoned_step (hs : History e Allowed s) (h : Abandoned e.protobuf s.log)
    (hstops : StopsReading e s) {a : Action} (ha : CancelsHeeded e s a)
    (hstep : step e s a = some t) : Abandoned e.protobuf t.log := by
  by_cases hreceive : a.isReceive
  · cases a with
    | receive message cancels =>
      obtain ⟨htask, ⟨evs, hlog, hevs⟩, -⟩ := receive_events hstep
      rw [hlog]
      exact h.receive hs (fun hside u => hstops.not_canceledSince htask hside u) ha hevs
    | _ => exact hreceive.elim
  · obtain ⟨ev, hev⟩ := step_event hstep hreceive
    obtain ⟨hcallback, hquiet⟩ := hev.quiet hreceive
    rw [hev.log]
    exact h.quiet hcallback hquiet

/-- A cancellation that is heeded is handled in the message it comes in. -/
theorem onCanceled_dispatch {message : WsMessage} {cancels : ProgressContext → Bool}
    (ha : CancelsHeeded e s (.receive message cancels)) {pctx : ProgressContext}
    (hmem : .onCallback pctx ∈
      (messageDispatch e.protobuf e.snap cancels s.contexts message.intoData).2)
    (hcanceled : pctx.canceled = true) : .onCanceled pctx ∈
      (messageDispatch e.protobuf e.snap cancels s.contexts message.intoData).2 := by
  cases hf : frameOf e.protobuf message.intoData with
  | none =>
    rw [dispatch_malformed hf] at hmem
    exact absurd hmem (no_progress_malformed _ _)
  | some f =>
    obtain ⟨v, frame⟩ := f
    have hnot := not_end_of_heeded ha hmem hcanceled v
    rw [dispatch_frame hf] at hmem ⊢
    refine (onCanceled_callbacks hmem hcanceled).resolve_right fun hend => ?_
    obtain ⟨m, rfl⟩ := hend
    exact hnot m hf

theorem stopsReading_step (hstops : StopsReading e s) {a : Action} (ha : CancelsHeeded e s a)
    (hstep : step e s a = some t) : StopsReading e t := by
  intro hside pctx hmem hpctx
  by_cases hreceive : a.isReceive
  · cases a with
    | receive message cancels =>
      obtain ⟨htask, ⟨evs, hlog, hevs⟩, hcanceled⟩ := receive_events hstep
      rw [hlog, List.mem_append] at hmem
      obtain hmem | hmem := hmem
      · exact absurd htask (hstops hside pctx hmem hpctx)
      · obtain ⟨callback, hcallback, heq⟩ := hevs (.progressed pctx)
          ((List.mem_cons.mp hmem).resolve_left (by simp))
        cases heq
        exact hcanceled hside pctx (onCanceled_dispatch ha hcallback hpctx)
    | _ => exact hreceive.elim
  · obtain ⟨ev, hev⟩ := step_event hstep hreceive
    rw [hev.log, List.mem_append] at hmem
    obtain hmem | hmem := hmem
    · intro htask
      exact hstops hside pctx hmem hpctx (hev.still_running htask)
    · cases List.mem_singleton.mp hmem
      cases (hev.quiet hreceive).1

/-- **A cancelled transfer is never delivered** in the runs that heed their
cancellations: in every state reached its buffer is as it was, and no END of it has
delivered. -/
theorem canceled_abandoned (h : Runs.Reachable (step e) (CancelsHeeded e) .init s) :
    Abandoned e.protobuf s.log := by
  have hboth : Abandoned e.protobuf s.log ∧ StopsReading e s := by
    apply h.invariant
    · refine ⟨fun a pctx b rest hlog => ?_, fun hside pctx hmem => ?_⟩
      · simp [State.init] at hlog
      · cases hmem
    · intro s a t hs hinv ha hstep
      exact ⟨abandoned_step (history_of_reachable hs) hinv.1 hinv.2 ha hstep,
        stopsReading_step hinv.2 ha hstep⟩
  exact hboth.1

/-! ### A transfer cancelled at its first frame -/

/-- A frame of the peer, received under a callback that cancels at BEGIN. -/
def canceling (frame : Frame) : Action :=
  .receive (.binary (Protobuf.generated.writeToBytes frame))
    fun pctx => decide (pctx.method = .BEGIN)

def firstFrame : Frame := beginFrame .nil 19

theorem firstFrame_heeded (s : State) : CancelsHeeded exampleServer s (canceling firstFrame) := by
  show ∀ u frame, frameOf Protobuf.generated (Protobuf.generated.writeToBytes firstFrame) =
    some (u, frame) → _
  intro u frame hframe
  rw [show frameOf Protobuf.generated (Protobuf.generated.writeToBytes firstFrame) =
    some (.nil, firstFrame) from frameOf_write Protobuf.generated_inverts rfl rfl] at hframe
  obtain ⟨rfl, rfl⟩ := Prod.mk.inj (Option.some.inj hframe)
  refine ⟨fun m c hend => ?_, fun hside => ?_⟩
  · cases hend
  · cases hside

theorem canceled_abandoned_server : ∃ s : State,
    s.log = [.received (Protobuf.generated.writeToBytes firstFrame),
      .progressed ⟨.BEGIN, .nil, 19, 0, true⟩, .canceled ⟨.BEGIN, .nil, 19, 0, true⟩] ∧
    Abandoned Protobuf.generated s.log := by
  have hrun : (step exampleServer .init (canceling firstFrame)).map State.log =
      some [.received (Protobuf.generated.writeToBytes firstFrame),
        .progressed ⟨.BEGIN, .nil, 19, 0, true⟩, .canceled ⟨.BEGIN, .nil, 19, 0, true⟩] := by
    decide +kernel
  obtain ⟨s, hs, hlog⟩ := Option.map_eq_some_iff.mp hrun
  exact ⟨s, hlog, canceled_abandoned (e := exampleServer)
    (.step .init (firstFrame_heeded _) hs)⟩

/-- A request waits for its answer, and the answer begins. -/
def answerBegins : List Event :=
  requestLog exampleCall ++ [.polled exampleCall 0 .pending,
    .received (Protobuf.generated.writeToBytes firstFrame)]

/-- What the client does with the frames that still come. -/
def goesOn : List Event :=
  [.received (Protobuf.generated.writeToBytes (processFrame .nil 0 (SnappyFrame.encode [7]))),
    .progressed ⟨.PROCESS, .nil, 19, 19, false⟩,
    .received (Protobuf.generated.writeToBytes (endFrame .nil)),
    .progressed ⟨.END, .nil, 19, 19, false⟩]

theorem canceled_log : (Runs.run (step exampleClient) .init (request exampleCall ++
      [.poll exampleCall 0, canceling firstFrame,
        canceling (processFrame .nil 0 (SnappyFrame.encode [7])), canceling (endFrame .nil)])).map
        State.log =
    some (answerBegins ++ .progressed ⟨.BEGIN, .nil, 19, 0, true⟩ ::
      (goesOn ++ [.delivered .nil [7] (.woke 0)])) := by
  decide +kernel

/-- **A cancelled transfer is delivered**: on the client the frames after the cancellation
are handled as before. -/
theorem canceled_delivered : ¬ ∀ s, Runs.Reachable (step exampleClient) (fun _ _ => True) .init s →
    Abandoned Protobuf.generated s.log := by
  intro hclaim
  obtain ⟨s, hs, hlog⟩ := reachable_of_log canceled_log
  have hend : lastFrame Protobuf.generated
      (answerBegins ++ .progressed ⟨.BEGIN, .nil, 19, 0, true⟩ :: goesOn) =
        some (.nil, .end ⟨.END, Uuid.nil.bytes⟩) := by
    decide +kernel
  have hframes : receivedFrames Protobuf.generated .nil
      (goesOn ++ [.delivered .nil [7] (.woke 0)]) =
        [processFrame .nil 0 (SnappyFrame.encode [7]), endFrame .nil] := by
    decide +kernel
  have hbegin : ∀ m, .begin m ∉ receivedFrames Protobuf.generated .nil
      (goesOn ++ [.delivered .nil [7] (.woke 0)]) := by
    intro m hmem
    rw [hframes] at hmem
    simp [processFrame, endFrame] at hmem
  rw [← List.append_nil (goesOn ++ _)] at hlog
  exact (hclaim s hs answerBegins _ _ [] hlog rfl hbegin).delivered (.progressed _ :: goesOn) [7]
    (.woke 0) [] _ rfl hend

end Wsmq
