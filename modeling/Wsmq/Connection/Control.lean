import Wsmq.Connection.Cancel

/-! Messages that are not Binary.

The senders make every frame a Binary message, and the read loops of both ends give the
dispatcher `into_data()` of whatever arrives: the payload of a Ping, a Pong, a Text or a
Close is read as a frame, and an empty one is reported as an error. `Inert` are the
payloads the dispatcher passes over. They alone leave the connection as it was, and a run
without the other kinds goes on as it did where their payloads are inert
(`inert_left_alone`). -/
namespace Wsmq

variable {e : Endpoint} {s s' t : State} {P : Protobuf} {S : Snap} {contexts : Contexts}
variable {data : Bytes} {cancels : ProgressContext → Bool} {m : WsMessage}

def WsMessage.isBinary : WsMessage → Bool
  | .binary _ => true
  | _ => false

/-- The contexts and the table are as they were, and nothing was called back. -/
structure LeftAlone (s t : State) : Prop where
  contexts : t.contexts = s.contexts
  responses : t.responses = s.responses
  silent : ∀ ev ∈ since s t, ev.callback = none

/-- A payload that the dispatcher passes over: it has a header with a uuid, and carries no
frame or a PROCESS or END of no open transfer. -/
structure Inert (P : Protobuf) (contexts : Contexts) (data : Bytes) : Prop where
  readable : ∃ header uuid, P.parseHeader data = some header ∧
    Uuid.fromSlice header.uuid = some uuid
  untaken : ∀ uuid frame, frameOf P data = some (uuid, frame) →
    (frame.kind = .PROCESS ∨ frame.kind = .END) ∧ contexts.lookup uuid = none

/-! ### What the dispatcher passes over -/

theorem progress_ne_nil (cancels : ProgressContext → Bool) (pctx : ProgressContext) :
    progress cancels pctx ≠ [] := by
  rw [progress_eq]
  exact List.cons_ne_nil _ _

theorem dispatch_inert_iff :
    messageDispatch P S cancels contexts data = (contexts, []) ↔ Inert P contexts data := by
  cases hf : frameOf P data with
  | none =>
    rw [dispatch_malformed hf, Prod.mk.injEq, and_iff_right rfl, malformed_nil_iff]
    refine ⟨fun h => ⟨h, fun uuid frame hframe => ?_⟩, Inert.readable⟩
    cases hf.symm.trans hframe
  | some x =>
    obtain ⟨uuid, frame⟩ := x
    have huntaken : Inert P contexts data ↔
        (frame.kind = .PROCESS ∨ frame.kind = .END) ∧ contexts.lookup uuid = none := by
      refine ⟨fun h => h.untaken uuid frame hf, fun h => ⟨frameOf_header hf, ?_⟩⟩
      intro uuid' frame' hframe
      cases hf.symm.trans hframe
      exact h
    have hsame : MessageContext.next (contexts.lookup uuid) frame = contexts.lookup uuid →
        Keyed.step MessageContext.next contexts (uuid, frame) = contexts :=
      fun h => Keyed.step_same _ _ _ h
    rw [dispatch_frame hf, huntaken, Prod.mk.injEq]
    cases frame with
    | oneshot m => simp [MessageContext.callbacks, Frame.kind]
    | begin m => simp [MessageContext.callbacks, Frame.kind, progress_ne_nil]
    | process m =>
      cases hc : contexts.lookup uuid with
      | none =>
        rw [hc] at hsame
        exact iff_of_true ⟨hsame rfl, rfl⟩ ⟨.inl rfl, rfl⟩
      | some c => simp [MessageContext.callbacks, progress_ne_nil]
    | «end» m =>
      cases hc : contexts.lookup uuid with
      | none =>
        rw [hc] at hsame
        exact iff_of_true ⟨hsame rfl, rfl⟩ ⟨.inr rfl, rfl⟩
      | some c =>
        -- END takes the context out.
        refine iff_of_false (fun h => ?_) fun h => ?_
        · obtain ⟨hstep, -⟩ := h
          have hlookup : (Keyed.step MessageContext.next contexts (uuid, .end m)).lookup uuid =
              contexts.lookup uuid := by rw [hstep]
          rw [Keyed.lookup_step, if_pos rfl, hc] at hlookup
          cases hlookup
        · obtain ⟨-, hnone⟩ := h
          cases hnone

/-- The first callback of a string is no cancellation. -/
theorem dispatch_head {callback : Callback} {rest : List Callback}
    (h : (messageDispatch P S cancels contexts data).2 = callback :: rest)
    (pctx : ProgressContext) : callback ≠ .onCanceled pctx := by
  have hprogress : ∀ pctx', progress cancels pctx' = callback :: rest →
      callback ≠ .onCanceled pctx := by
    intro pctx' hp
    rw [progress_eq] at hp
    cases hp
    exact fun h => by cases h
  rw [dispatch_eq] at h
  split at h
  · have hhead : malformed P data = callback :: rest := h
    have hmem : callback ∈ malformed P data := by simp [hhead]
    obtain rfl | rfl := mem_malformed hmem <;> exact fun h => by cases h
  · rename_i uuid frame hf
    cases frame with
    | oneshot m =>
      cases h
      exact fun h => by cases h
    | begin m => exact hprogress _ h
    | process m =>
      dsimp only [MessageContext.callbacks] at h
      split at h
      · cases h
      · exact hprogress _ h
    | «end» m =>
      dsimp only [MessageContext.callbacks] at h
      split at h
      · cases h
      · split at h
        · split at h <;> cases h <;> exact fun h => by cases h
        · cases h

/-! ### One message -/

theorem handles_contexts {callbacks : List Callback}
    (h : callbacks.foldlM (handle e) s = some t) : t.contexts = s.contexts := by
  rw [← Runs.run_eq_foldlM] at h
  apply Runs.run_invariant (P := fun t => t.contexts = s.contexts) rfl _ h
  intro u callback v _ hu hstep
  obtain ⟨-, -, -, hcontexts⟩ := handle_frame hstep
  exact hcontexts.trans hu

/-- Every callback but a cancellation is recorded. -/
theorem handle_recorded {callback : Callback} (hcallback : ∀ pctx, callback ≠ .onCanceled pctx)
    (h : handle e s callback = some t) :
    ∃ ev, t.log = s.log ++ [ev] ∧ ev.callback = some callback := by
  cases callback with
  | onMessage u x =>
    simp only [handle] at h
    split at h
    · cases h
      exact ⟨_, rfl, rfl⟩
    · split at h <;> cases h <;> exact ⟨_, rfl, rfl⟩
  | onCallback pctx | onError err =>
    cases h
    exact ⟨_, rfl, rfl⟩
  | onCanceled pctx => exact absurd rfl (hcallback pctx)

theorem receive_inert (htask : s.task = .running)
    (h : Inert e.protobuf s.contexts m.intoData) :
    step e s (.receive m cancels) = some (s.record (.received m.intoData)) := by
  have hdispatch : messageDispatch e.protobuf e.snap cancels s.contexts m.intoData =
      (s.contexts, []) := dispatch_inert_iff.mpr h
  simp only [step]
  rw [if_pos htask, hdispatch]
  rfl

/-- **Exactly which payloads leave the connection alone**, whatever the kind. -/
theorem left_alone_iff (htask : s.task = .running) :
    (∃ t, step e s (.receive m cancels) = some t ∧ LeftAlone s t) ↔
      Inert e.protobuf s.contexts m.intoData := by
  constructor
  · intro ⟨t, hstep, halone⟩
    simp only [step] at hstep
    rw [if_pos htask] at hstep
    suffices messageDispatch e.protobuf e.snap cancels s.contexts m.intoData =
        (s.contexts, []) from dispatch_inert_iff.mp this
    refine Prod.ext ((handles_contexts hstep).symm.trans halone.contexts) ?_
    cases hcallbacks : (messageDispatch e.protobuf e.snap cancels s.contexts m.intoData).2 with
    | nil => rfl
    | cons callback rest =>
      rw [hcallbacks, List.foldlM_cons] at hstep
      obtain ⟨u, hfirst, hrest⟩ := Option.bind_eq_some_iff.mp hstep
      obtain ⟨ev, hev, hcallback⟩ := handle_recorded (dispatch_head hcallbacks) hfirst
      obtain ⟨⟨evs, hevs, -⟩, -⟩ := handles_events hrest
      have hlog : t.log = s.log ++ (.received m.intoData :: ev :: evs) := by
        rw [hevs, hev, State.record_log]
        simp
      have hnone := halone.silent ev (by rw [since_eq hlog]; simp)
      cases hnone.symm.trans hcallback
  · intro h
    refine ⟨_, receive_inert htask h, rfl, rfl, fun ev hev => ?_⟩
    rw [since_eq (State.record_log s _)] at hev
    cases List.mem_singleton.mp hev
    rfl

/-! ### A run without them -/

def Event.isReceived : Event → Bool
  | .received _ => true
  | _ => false

/-- What happened, but for the strings that were received. -/
def unreceived (log : List Event) : List Event := log.filter fun ev => !ev.isReceived

/-- The states agree in all but the strings received. -/
def SameButReceived (s s' : State) : Prop :=
  ∃ log, s' = {s with log := log} ∧ unreceived log = unreceived s.log

/-- A step of the connection, or a Binary message. -/
def Action.isOrdinary : Action → Bool
  | .receive m _ => m.isBinary
  | _ => true

/-- A message that is not Binary has an inert payload. -/
def OthersInert (e : Endpoint) (s : State) (a : Action) : Prop :=
  ∀ m cancels, a = .receive m cancels → m.isBinary = false →
    Inert e.protobuf s.contexts m.intoData

theorem hasResponse_unreceived (u : Uuid) (log : List Event) :
    hasResponse u (unreceived log) = hasResponse u log := by
  rw [hasResponse, unreceived, List.any_filter, hasResponse]
  congr 1
  funext ev
  cases ev <;> rfl

variable {log : List Event}

theorem same_record {ev : Event} (h : unreceived log = unreceived s.log) :
    SameButReceived (s.record ev) ({s with log := log}.record ev) := by
  refine ⟨log ++ [ev], rfl, ?_⟩
  rw [State.record_log, unreceived, unreceived, List.filter_append, List.filter_append]
  exact congrArg (· ++ _) h

theorem same_handle (h : SameButReceived s s') (callback : Callback) :
    Option.Rel SameButReceived (handle e s callback) (handle e s' callback) := by
  obtain ⟨log, rfl, hlog⟩ := h
  cases callback with
  | onMessage u x =>
    simp only [handle]
    split
    · exact .some (same_record hlog)
    · split
      · exact .none
      · exact .some (same_record hlog)
      · exact .some (same_record hlog)
  | onCallback pctx => exact .some (same_record hlog)
  | onError err => exact .some (same_record hlog)
  | onCanceled pctx =>
    simp only [handle]
    split
    · exact .some ⟨log, rfl, hlog⟩
    · exact .some (same_record hlog)

theorem same_step (h : SameButReceived s s') (a : Action) :
    Option.Rel SameButReceived (step e s a) (step e s' a) := by
  obtain ⟨log, rfl, hlog⟩ := h
  have hresponse : ∀ u, hasResponse u log = hasResponse u s.log := by
    intro u
    rw [← hasResponse_unreceived, hlog, hasResponse_unreceived]
  cases a with
  | send c request =>
    simp only [step]
    split
    · split
      · exact .none
      · cases SharedData.generateUuid s.responses c.uuid with
        | none => exact .none
        | some responses => exact .some (same_record hlog)
      · split
        · exact .some (same_record hlog)
        · exact .none
    · exact .none
  | reply c request =>
    simp only [step, hresponse]
    split
    · split
      · exact .none
      · exact .some (same_record hlog)
      · exact .some (same_record hlog)
    · exact .none
  | push c =>
    simp only [step]
    split
    · split
      · exact .some (same_record hlog)
      · exact .some (same_record hlog)
    · exact .none
  | ret c =>
    simp only [step]
    split
    · exact .some (same_record hlog)
    · exact .some (same_record hlog)
    · split
      · exact .some (same_record hlog)
      · exact .some (same_record hlog)
    · exact .none
  | receive m cancels =>
    simp only [step]
    split
    · rw [← Runs.run_eq_foldlM, ← Runs.run_eq_foldlM]
      exact Runs.run_rel (fun _ _ callback _ hrel => same_handle hrel callback)
        (same_record hlog)
    · exact .none
  | poll f w | drop f | clearWake | clearEmpty =>
    simp only [step]
    split
    · split
      · exact .none
      · exact .some (same_record hlog)
      · exact .some (same_record hlog)
    · exact .none
  | select | dropReceiver | abort =>
    simp only [step]
    split
    · exact .some (same_record hlog)
    · exact .none

/-- **The messages that are not Binary**: they leave the connection alone exactly when their
payloads are inert, and the run without them is then the same, in its deliveries, its polls
and its errors as in all else. -/
theorem inert_left_alone (e : Endpoint) :
    (∀ s m cancels, s.task = .running →
      ((∃ t, step e s (.receive m cancels) = some t ∧ LeftAlone s t) ↔
        Inert e.protobuf s.contexts m.intoData)) ∧
    ∀ s t actions, Runs.run (step e) s actions = some t →
      Runs.Along (step e) (OthersInert e) s actions →
      ∃ t', Runs.run (step e) s (actions.filter Action.isOrdinary) = some t' ∧
        SameButReceived t t' := by
  refine ⟨fun s m cancels htask => left_alone_iff htask, fun s t actions hrun halong => ?_⟩
  apply Runs.run_filter _ _ ⟨s.log, rfl, rfl⟩ halong hrun
  · intro u u' a v hsame _ _ hstep
    have hrel := same_step (e := e) hsame a
    rw [hstep] at hrel
    generalize step e u' a = x at hrel
    cases hrel with
    | some hv => exact ⟨_, rfl, hv⟩
  · intro u u' a v hsame hinert hother hstep
    cases a with
    | receive m cancels =>
      have htask : u.task = .running := by
        by_contra hstopped
        simp only [step, if_neg hstopped] at hstep
        cases hstep
      rw [receive_inert htask (hinert m cancels rfl hother)] at hstep
      cases hstep
      obtain ⟨log, rfl, hlog⟩ := hsame
      refine ⟨log, rfl, hlog.trans ?_⟩
      rw [State.record_log, unreceived, unreceived, List.filter_append]
      exact (List.append_nil _).symm
    | _ => cases hother

/-- The END of a transfer that was never begun, as the payload of a control frame. -/
def strayEnd : Bytes := Protobuf.generated.writeToBytes (endFrame .nil)

theorem strayEnd_inert (h : contexts.lookup .nil = none) :
    Inert Protobuf.generated contexts strayEnd := by
  have hframe : frameOf Protobuf.generated strayEnd = some (.nil, endFrame .nil) :=
    frameOf_write Protobuf.generated_inverts rfl rfl
  refine ⟨frameOf_header hframe, fun uuid frame hframe' => ?_⟩
  cases hframe.symm.trans hframe'
  exact ⟨.inr rfl, h⟩

def strayTest (s : State) : Action → Bool
  | .receive m _ => m.isBinary || (decide (m.intoData = strayEnd) &&
      decide (s.contexts.lookup .nil = none))
  | _ => true

theorem othersInert_of_test (s : State) (a : Action) (h : strayTest s a = true) :
    OthersInert exampleClient s a := by
  rintro m cancels rfl hbinary
  simp only [strayTest, hbinary, Bool.false_or, Bool.and_eq_true, decide_eq_true_eq] at h
  rw [h.1]
  exact strayEnd_inert h.2

/-- A request, a Ping and its answer. -/
def withPing : List Action := request exampleCall ++ [.poll exampleCall 0,
  .receive (.ping strayEnd) fun _ => false, incoming .nil [9], .poll exampleCall 1]

theorem inert_left_alone_ping :
    (∃ t, step exampleClient .init (.receive (.ping strayEnd) fun _ => false) = some t ∧
      LeftAlone .init t) ∧
    ∃ t t', Runs.run (step exampleClient) .init withPing = some t ∧
      Runs.run (step exampleClient) .init (request exampleCall ++
        [.poll exampleCall 0, incoming .nil [9], .poll exampleCall 1]) = some t' ∧
      SameButReceived t t' := by
  obtain ⟨hone, hruns⟩ := inert_left_alone exampleClient
  refine ⟨(hone .init (.ping strayEnd) _ rfl).mpr (strayEnd_inert rfl), ?_⟩
  have hview : ((Runs.tested (step exampleClient) strayTest .init withPing).map
      fun s => s.task) = some .running := by decide +kernel
  have hfilter : withPing.filter Action.isOrdinary = request exampleCall ++
      [.poll exampleCall 0, incoming .nil [9], .poll exampleCall 1] := rfl
  obtain ⟨t, htested, -⟩ := Option.map_eq_some_iff.mp hview
  obtain ⟨halong, hrun⟩ := Runs.along_tested othersInert_of_test htested
  obtain ⟨t', hrun', hsame⟩ := hruns .init t withPing hrun halong
  exact ⟨t, t', hrun, hfilter ▸ hrun', hsame⟩

/-- **An empty Ping is an error**, and a Ping with a frame in it is the frame. -/
theorem ping_handled : (¬ ∀ (e : Endpoint) (s t : State) (m : WsMessage)
      (cancels : ProgressContext → Bool), Runs.Reachable (step e) (fun _ _ => True) .init s →
      m.isBinary = false → step e s (.receive m cancels) = some t → LeftAlone s t) ∧
    (Runs.run (step exampleServer) .init [.receive (.ping (Protobuf.generated.writeToBytes
      (oneshotFrame .nil [9]))) fun _ => false]).map State.log =
      some (incomingLog .nil [9] .handed) := by
  constructor
  · intro hclaim
    have hview : (step exampleClient .init (.receive (.ping []) fun _ => false)).map State.log =
        some [.received [], .errored .uuid] := by decide +kernel
    obtain ⟨t, hstep, hlog⟩ := Option.map_eq_some_iff.mp hview
    have halone := hclaim exampleClient .init t _ _ .init rfl hstep
    have hnone := halone.silent (.errored .uuid) (by rw [since_eq hlog]; simp)
    cases hnone
  · decide +kernel

end Wsmq
