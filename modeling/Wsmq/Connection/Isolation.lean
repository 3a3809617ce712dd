import Wsmq.Connection.Frames

/-! Requests do not see each other.

`seen u` is what a connection is to one uuid: its entry, its calls, its context, its
frames, and of the log the events that name it. An action about `u` does to `seen u`
what it does to the connection; any other leaves `seen u` alone. So a run with all
other actions deleted is a run, and ends in `seen u` of where the whole run ends
(`isolated`). The mutex is the one thing the calls share, and it only makes them
wait. -/
namespace Wsmq

/-- The action concerns `u`, or no uuid in particular. -/
def Action.about (P : Protobuf) (u : Uuid) : Action → Bool
  | .send c _ => c.uuid = u
  | .reply c _ => c.uuid = u
  | .push c => c.uuid = u
  | .ret c => c.uuid = u
  | .poll f _ => f.uuid = u
  | .drop f => f.uuid = u
  | .receive m _ => (frameOf P m.intoData).map Prod.fst = some u
  | _ => true

/-- What an event is to `u`. -/
def Event.restrict (P : Protobuf) (u : Uuid) : Event → Option Event
  | .opened c => if c.uuid = u then some (.opened c) else none
  | .unregistered c => if c.uuid = u then some (.unregistered c) else none
  | .queued c frame => if c.uuid = u then some (.queued c frame) else none
  | .refused c frame => if c.uuid = u then some (.refused c frame) else none
  | .returned c r => if c.uuid = u then some (.returned c r) else none
  | .poisoned c => if c.uuid = u then some (.poisoned c) else none
  | .polled f w r => if f.uuid = u then some (.polled f w r) else none
  | .dropped f removed => if f.uuid = u then some (.dropped f removed) else none
  | .received data =>
    if (frameOf P data).map Prod.fst = some u then some (.received data) else none
  | .progressed pctx => if pctx.uuid = u then some (.progressed pctx) else none
  | .canceled pctx => if pctx.uuid = u then some (.canceled pctx) else none
  | .errored (.snap v) => if v = u then some (.errored (.snap v)) else none
  | .errored _ => none
  | .delivered v x outcome => if v = u then some (.delivered v x outcome) else none
  | .clearWoke wakers => some (.clearWoke (wakers.filter fun entry => entry.1 = u))
  | ev => some ev

def Lock.restrict (u : Uuid) : Lock → Lock
  | .held c => if c.uuid = u then .held c else .free
  | lock => lock

/-- The connection as `u` sees it. -/
def State.seen (P : Protobuf) (u : Uuid) (s : State) : State where
  responses := HashMap.only u s.responses
  lock := s.lock.restrict u
  queue := framesOf u s.queue
  calls := fun c => if c.uuid = u then s.calls c else .idle
  contexts := HashMap.only u s.contexts
  task := s.task
  log := s.log.filterMap (Event.restrict P u)

variable {e : Endpoint} {Allowed : State → Action → Prop} {s t : State} {P : Protobuf} {u : Uuid}

theorem seen_init : State.seen P u .init = .init := by
  apply State.ext
  · exact HashMap.only_empty u
  · rfl
  · rfl
  · funext c
    exact ite_self _
  · exact HashMap.only_empty u
  · rfl
  · rfl

theorem seen_calls {c : Ticket} (hc : c.uuid = u) : (s.seen P u).calls c = s.calls c :=
  if_pos hc

theorem seen_lock {lock : Lock} (h : s.lock = lock) : (s.seen P u).lock = lock.restrict u := by
  rw [← h]
  rfl

theorem seen_lookup : (s.seen P u).responses.lookup u = s.responses.lookup u :=
  HashMap.lookup_only_self u _

/-! ### What `u` does not see -/

theorem log_unseen (ev : Event) (hev : ev.restrict P u = none) {log : List Event} :
    (log ++ [ev]).filterMap (Event.restrict P u) = log.filterMap (Event.restrict P u) := by
  rw [List.filterMap_append, List.filterMap_cons_none hev, List.filterMap_nil, List.append_nil]

theorem calls_unseen {c : Ticket} {stage : Stage} (hc : c.uuid ≠ u) :
    (fun d => if d.uuid = u then (s.setCall c stage).calls d else .idle) =
      fun d => if d.uuid = u then s.calls d else .idle := by
  funext d
  by_cases hd : d.uuid = u
  · have hdc : d ≠ c := fun h => hc (h ▸ hd)
    rw [if_pos hd, if_pos hd, State.setCall_calls, if_neg hdc]
  · rw [if_neg hd, if_neg hd]

theorem release_unseen {c : Ticket} (hc : c.uuid ≠ u) :
    (s.release c).lock.restrict u = s.lock.restrict u := by
  rw [State.release_lock]
  by_cases hlock : s.lock = .held c
  · rw [if_pos hlock, hlock]
    exact (if_neg hc).symm
  · rw [if_neg hlock]

/-- A string without a frame of `u` leaves the context of `u`. -/
theorem contexts_unseen {S : Snap} {cancels : ProgressContext → Bool} {contexts : Contexts}
    {data : Bytes} (h : (frameOf P data).map Prod.fst ≠ some u) :
    (messageDispatch P S cancels contexts data).1.lookup u = contexts.lookup u := by
  cases hf : frameOf P data with
  | none => rw [dispatch_malformed hf]
  | some x =>
    obtain ⟨v, frame⟩ := x
    have hne : u ≠ v := by
      rintro rfl
      exact h (by rw [hf]; rfl)
    rw [dispatch_frame hf, Keyed.lookup_step, if_neg hne]

/-- The frames a call has still to queue are under its uuid, whatever the bandwidth. -/
theorem sending_uuid (S : Snap) (bandwidth : UInt64) (u : Uuid) (request : Request) :
    ∀ f ∈ (request.sending S bandwidth u).frames, f.uuid = u.bytes := by
  have hplan : Plan bandwidth u (request.sending S bandwidth u) := request_plan request
  generalize request.sending S bandwidth u = sending at hplan
  intro f hf
  cases hplan with
  | fails err => cases hf
  | sends htransfer =>
    rw [Sending.frames_queueAll, Sending.frames, List.append_nil] at hf
    exact (htransfer.mem f hf).1
  | panics hb length =>
    cases List.mem_singleton.mp hf
    rfl

theorem History.sending_uuid (h : History e Allowed s) (c : Ticket) (rest : Sending)
    (hc : s.calls c = .sending rest) : ∀ f ∈ rest.frames, f.uuid = c.uuid.bytes := by
  induction h generalizing c rest with
  | init => cases hc
  | event hs ha hev ih =>
    rcases hev.sending_inv hc with hkept | ⟨-, request, rfl⟩ | ⟨frame, hqueued⟩ | ⟨_, _, -, rfl⟩
    · exact ih c rest hkept
    · exact Wsmq.sending_uuid _ _ _ _
    · exact fun f hf => ih c _ hqueued f (List.mem_cons_of_mem _ hf)
    · exact fun f hf => by cases hf

theorem queued_uuid (hs : History e Allowed s) {c : Ticket} {frame : Frame} {rest : Sending}
    (hcall : s.calls c = .sending (.queue frame rest)) : frame.uuid = c.uuid.bytes :=
  hs.sending_uuid c _ hcall frame (List.mem_cons_self ..)

/-- **What `u` does not see** leaves what it sees. -/
theorem Occurs.unseen (hs : History e Allowed s) {a : Action} {ev : Event} (h : Occurs e s a ev t)
    (hreceive : ¬ a.isReceive) (ha : a.about P u = false) (hok : t.lock ≠ .poisoned) :
    t.seen P u = s.seen P u := by
  have hlog : ev.restrict P u = none → t.log.filterMap (Event.restrict P u) =
      s.log.filterMap (Event.restrict P u) := fun hev => by
    rw [h.log, log_unseen ev hev]
  cases h with
  | received | progressed | errored | canceled | handed | delivered | deliverFailed =>
    exact absurd trivial hreceive
  | selected | clearWoke | clearWakePanicked | clearEmptied | clearEmptyPanicked
  | receiverDropped | aborted => cases ha
  | sent =>
    have hc := of_decide_eq_false ha
    have hregister := (lookup_register s.responses _ u).trans (if_neg (Ne.symm hc))
    exact State.ext (HashMap.only_congr hregister) rfl rfl (calls_unseen hc) rfl rfl
      (hlog (if_neg hc))
  | @replied c request _ _ hlock =>
    have hc := of_decide_eq_false ha
    have hregister := (lookup_register s.responses _ u).trans (if_neg (Ne.symm hc))
    have hfree : (Lock.held c).restrict u = s.lock.restrict u := by
      rw [hlock]
      exact if_neg hc
    exact State.ext (HashMap.only_congr hregister) hfree rfl (calls_unseen hc) rfl rfl
      (hlog (if_neg hc))
  | queued hcall =>
    have hc := of_decide_eq_false ha
    have hframes := framesOf_ne (queued_uuid hs hcall) (Ne.symm hc) s.queue
    exact State.ext rfl rfl hframes (calls_unseen hc) rfl rfl (hlog (if_neg hc))
  | returnedOk | returnedErr =>
    have hc := of_decide_eq_false ha
    exact State.ext rfl (release_unseen hc) rfl (calls_unseen hc) rfl rfl
      (hlog (if_neg hc))
  | poisoned => exact absurd rfl hok
  | @polled f w =>
    have hf := of_decide_eq_false ha
    have hpoll := (lookup_poll s.responses f.uuid u w).trans (if_neg (Ne.symm hf))
    exact State.ext (HashMap.only_congr hpoll) rfl rfl rfl rfl rfl (hlog (if_neg hf))
  | pollFailed =>
    exact State.ext rfl rfl rfl rfl rfl rfl (hlog (if_neg (of_decide_eq_false ha)))
  | dropped =>
    have hf := of_decide_eq_false ha
    have hdrop := (lookup_drop s.responses _ u).trans (if_neg (Ne.symm hf))
    exact State.ext (HashMap.only_congr hdrop) rfl rfl (calls_unseen hf) rfl rfl
      (hlog (if_neg hf))
  | unregistered | replyFailed | refused | panicked | dropFailed =>
    have hc := of_decide_eq_false ha
    exact State.ext rfl rfl rfl (calls_unseen hc) rfl rfl (hlog (if_neg hc))

/-! ### What `u` sees -/

theorem restrict_held {c : Ticket} (hc : c.uuid = u) {lock : Lock} :
    lock.restrict u = .held c ↔ lock = .held c := by
  cases lock with
  | held d =>
    simp only [Lock.restrict]
    split
    · rfl
    · rename_i hd
      refine ⟨fun h => (by cases h), fun h => ?_⟩
      cases h
      exact absurd hc hd
  | _ => rfl

theorem log_seen (ev : Event) {ev' : Event} (hev : ev.restrict P u = some ev') {log : List Event} :
    log.filterMap (Event.restrict P u) ++ [ev'] =
      (log ++ [ev]).filterMap (Event.restrict P u) := by
  rw [List.filterMap_append, List.filterMap_cons_some hev, List.filterMap_nil]

theorem calls_seen {c : Ticket} {stage : Stage} (hc : c.uuid = u) :
    ((s.seen P u).setCall c stage).calls =
      fun d => if d.uuid = u then (s.setCall c stage).calls d else .idle := by
  funext d
  rw [State.setCall_calls, State.setCall_calls]
  by_cases hd : d = c
  · rw [if_pos hd, if_pos hd, hd, if_pos hc]
  · rw [if_neg hd, if_neg hd]
    rfl

theorem release_seen {c : Ticket} (hc : c.uuid = u) :
    (if s.lock.restrict u = .held c then .free else s.lock.restrict u) =
      (s.release c).lock.restrict u := by
  rw [State.release_lock]
  by_cases hlock : s.lock = .held c
  · rw [if_pos hlock, if_pos ((restrict_held hc).mpr hlock)]
    rfl
  · rw [if_neg hlock, if_neg fun h => hlock ((restrict_held hc).mp h)]

/-- A response for `u` comes from an event that `u` sees. -/
theorem seen_response (hs : History e Allowed s) (h : hasResponse u s.log) :
    hasResponse u (s.seen P u).log := by
  obtain ⟨ev, hmem, hgives⟩ := List.any_eq_true.mp h
  refine List.any_eq_true.mpr ⟨ev, List.mem_filterMap.mpr ⟨ev, hmem, ?_⟩, hgives⟩
  cases ev with
  | polled f w r =>
    cases r with
    | readyOk response =>
      obtain ⟨l, l', hlog⟩ := List.append_of_mem hmem
      have huuid : response.uuid = u := of_decide_eq_true hgives
      rcases hs.polled hlog with ⟨-, hr⟩ | ⟨-, hr⟩
      · cases hr
      · exact if_pos ((result_readyOk hr.symm).2.symm.trans huuid)
    | _ => cases hgives
  | delivered v x outcome =>
    cases outcome with
    | handed => exact if_pos (of_decide_eq_true hgives)
    | _ => cases hgives
  | _ => cases hgives

/-- The wakers of one entry. -/
theorem startedWakers_only (responses : ResponseStatusMap) :
    SharedData.startedWakers (HashMap.only u responses) =
      (SharedData.startedWakers responses).filter fun entry => entry.1 = u := by
  have hnodup : ∀ m, (SharedData.startedWakers m).Nodup := by
    intro m
    refine Multiset.Nodup.filterMap _ ?_ m.nodup_entries
    rintro ⟨v, status⟩ ⟨v', status'⟩ entry h h'
    cases status <;> cases h
    cases status' <;> cases h'
    rfl
  refine ((hnodup _).ext ((hnodup _).filter _)).mpr ?_
  intro h
  obtain ⟨v, w⟩ := h
  rw [Multiset.mem_filter, mem_startedWakers, mem_startedWakers, HashMap.lookup_only]
  by_cases hv : v = u
  · rw [if_pos hv, hv]
    simp
  · simp [hv]

/-- **What `u` sees, happens to what it sees.** -/
theorem Occurs.seen (hside : e.side = .client) (hs : History e Allowed s) {a : Action}
    {ev : Event} (h : Occurs e s a ev t) (hreceive : ¬ a.isReceive)
    (ha : a.about e.protobuf u = true) (hok : t.lock ≠ .poisoned) :
    step e (s.seen e.protobuf u) a = some (t.seen e.protobuf u) := by
  have hlog : ∀ {ev'}, ev.restrict e.protobuf u = some ev' →
      (s.seen e.protobuf u).log ++ [ev'] = t.log.filterMap (Event.restrict e.protobuf u) := by
    intro ev' hev
    rw [h.log, ← log_seen ev hev]
    rfl
  cases h with
  | received | progressed | errored | canceled | handed | delivered | deliverFailed =>
    exact absurd trivial hreceive
  | @sent c request _ hidle hlock hnone =>
    have hc : c.uuid = u := of_decide_eq_true ha
    have hregister : Response.register (HashMap.only u s.responses) c.uuid =
        HashMap.only u (Response.register s.responses c.uuid) :=
      hc ▸ HashMap.only_comm (fun m v => lookup_register m c.uuid v) _
    have hnone' : (s.seen e.protobuf u).responses.lookup c.uuid = none := by
      rw [hc, seen_lookup, ← hc, hnone]
    refine step_to (.sent hside ((seen_calls hc).trans hidle) (seen_lock hlock) hnone') id ?_
    exact State.ext hregister rfl rfl (calls_seen hc) rfl rfl (hlog (if_pos hc))
  | @replied c request hresponse hidle hlock =>
    have hc : c.uuid = u := of_decide_eq_true ha
    have hregister : Response.register (HashMap.only u s.responses) c.uuid =
        HashMap.only u (Response.register s.responses c.uuid) :=
      hc ▸ HashMap.only_comm (fun m v => lookup_register m c.uuid v) _
    have hresponse' : hasResponse c.uuid (s.seen e.protobuf u).log :=
      hc ▸ seen_response hs (hc ▸ hresponse)
    refine step_to (.replied hresponse' ((seen_calls hc).trans hidle) (seen_lock hlock)) id ?_
    exact State.ext hregister (if_pos hc).symm rfl (calls_seen hc) rfl rfl (hlog (if_pos hc))
  | unregistered _ _ hlock | replyFailed _ _ hlock | pollFailed _ hlock | dropFailed _ hlock =>
    exact absurd hlock hok
  | clearWakePanicked _ _ hlock | clearEmptyPanicked _ hlock => exact absurd hlock hok
  | poisoned => exact absurd rfl hok
  | @queued c frame rest hcall hopen =>
    have hc : c.uuid = u := of_decide_eq_true ha
    have hqueue : framesOf u s.queue ++ [frame] = framesOf u (s.queue ++ [frame]) :=
      (framesOf_own (hc ▸ queued_uuid hs hcall) s.queue).symm
    refine step_to (.queued ((seen_calls hc).trans hcall) hopen) id ?_
    exact State.ext rfl rfl hqueue (calls_seen hc) rfl rfl (hlog (if_pos hc))
  | @refused c frame rest hcall hclosed =>
    have hc : c.uuid = u := of_decide_eq_true ha
    refine step_to (.refused ((seen_calls hc).trans hcall) hclosed) id ?_
    exact State.ext rfl rfl rfl (calls_seen hc) rfl rfl (hlog (if_pos hc))
  | @returnedOk c hcall =>
    have hc : c.uuid = u := of_decide_eq_true ha
    refine step_to (.returnedOk ((seen_calls hc).trans hcall)) id ?_
    exact State.ext rfl (release_seen hc) rfl (calls_seen hc) rfl rfl (hlog (if_pos hc))
  | @returnedErr c err hcall =>
    have hc : c.uuid = u := of_decide_eq_true ha
    refine step_to (.returnedErr ((seen_calls hc).trans hcall)) id ?_
    exact State.ext rfl (release_seen hc) rfl (calls_seen hc) rfl rfl (hlog (if_pos hc))
  | @panicked c hcall hlock =>
    have hc : c.uuid = u := of_decide_eq_true ha
    have hlock' : (s.seen e.protobuf u).lock ≠ .held c := fun h => hlock ((restrict_held hc).mp h)
    refine step_to (.panicked ((seen_calls hc).trans hcall) hlock') id ?_
    exact State.ext rfl rfl rfl (calls_seen hc) rfl rfl (hlog (if_pos hc))
  | @polled f w hlive hlock =>
    have hf : f.uuid = u := of_decide_eq_true ha
    have hresult : (ResponseFuture.poll (HashMap.only u s.responses) f.uuid w).1 =
        (ResponseFuture.poll s.responses f.uuid w).1 := by
      rw [poll_result, poll_result, hf, HashMap.lookup_only_self]
    have hpoll : (ResponseFuture.poll (HashMap.only u s.responses) f.uuid w).2 =
        HashMap.only u (ResponseFuture.poll s.responses f.uuid w).2 :=
      hf ▸ HashMap.only_comm (fun m v => lookup_poll m f.uuid v w) _
    refine step_to (.polled (s := s.seen e.protobuf u) (w := w) ((seen_calls hf).trans hlive)
      (seen_lock hlock)) id ?_
    refine State.ext hpoll rfl rfl rfl rfl rfl (Eq.trans ?_ (hlog (if_pos hf)))
    exact congrArg (fun r => _ ++ [Event.polled f w r]) hresult
  | @dropped f hlive hlock =>
    have hf : f.uuid = u := of_decide_eq_true ha
    have hdrop : ResponseFuture.drop (HashMap.only u s.responses) f.uuid =
        HashMap.only u (ResponseFuture.drop s.responses f.uuid) :=
      hf ▸ HashMap.only_comm (g := fun _ => none) (fun m v => lookup_drop m f.uuid v) _
    refine step_to (.dropped ((seen_calls hf).trans hlive) (seen_lock hlock)) id ?_
    exact State.ext hdrop rfl rfl (calls_seen hf) rfl rfl (hlog (if_pos hf))
  | selected htask =>
    refine step_to (.selected (s := s.seen e.protobuf u) htask) id ?_
    exact State.ext rfl rfl rfl rfl rfl rfl (hlog rfl)
  | clearWoke _ htask hlock =>
    refine step_to (.clearWoke (s := s.seen e.protobuf u) hside htask (seen_lock hlock)) id ?_
    refine State.ext rfl rfl rfl rfl rfl rfl (Eq.trans ?_ (hlog rfl))
    exact congrArg (fun wakers => _ ++ [Event.clearWoke wakers]) (startedWakers_only s.responses)
  | clearEmptied htask hlock =>
    refine step_to (.clearEmptied (s := s.seen e.protobuf u) htask (seen_lock hlock)) id ?_
    exact State.ext (HashMap.only_empty u).symm rfl rfl rfl rfl rfl (hlog rfl)
  | receiverDropped htask =>
    refine step_to (.receiverDropped (s := s.seen e.protobuf u) htask) id ?_
    exact State.ext rfl rfl rfl rfl rfl rfl (hlog rfl)
  | aborted _ htask =>
    refine step_to (.aborted (s := s.seen e.protobuf u) hside htask) id ?_
    exact State.ext rfl rfl rfl rfl rfl rfl (hlog rfl)

/-! ### Received messages -/

theorem handle_unseen (hside : e.side = .client) {callback : Callback}
    (hc : callback.about u = false) (h : handle e s callback = some t) :
    t.seen P u = s.seen P u := by
  cases callback with
  | onMessage v x =>
    have hv : v ≠ u := of_decide_eq_false hc
    simp only [handle, hside] at h
    split at h <;> cases h
    · have hresponses := (lookup_onMessage s.responses v u x).trans (if_neg (Ne.symm hv))
      exact State.ext (HashMap.only_congr hresponses) rfl rfl rfl rfl rfl
        (log_unseen (.delivered v x _) (if_neg hv))
    · exact State.ext rfl rfl rfl rfl rfl rfl
        (log_unseen (.delivered v x _) (if_neg hv))
  | onCallback pctx =>
    cases h
    exact State.ext rfl rfl rfl rfl rfl rfl
      (log_unseen (.progressed pctx) (if_neg (of_decide_eq_false hc)))
  | onError err =>
    cases h
    refine State.ext rfl rfl rfl rfl rfl rfl (log_unseen (.errored err) ?_)
    cases err with
    | snap v => exact if_neg (of_decide_eq_false hc)
    | _ => rfl
  | onCanceled pctx =>
    simp only [handle, hside] at h
    cases h
    rfl

theorem handle_seen (hside : e.side = .client) {callback : Callback}
    (hc : callback.about u = true) (hlock : s.lock ≠ .poisoned)
    (h : handle e s callback = some t) : handle e (s.seen P u) callback = some (t.seen P u) := by
  cases callback with
  | onMessage v x =>
    have hv : v = u := of_decide_eq_true hc
    simp only [handle, hside] at h ⊢
    split at h <;> cases h
    · rename_i hfree
      rw [seen_lock hfree]
      have hmessage : (Client.onMessage (HashMap.only u s.responses) v x).1 =
          HashMap.only u (Client.onMessage s.responses v x).1 :=
        hv ▸ HashMap.only_comm (fun m w => lookup_onMessage m v w x) _
      have houtcome : (Client.onMessage (HashMap.only u s.responses) v x).2 =
          (Client.onMessage s.responses v x).2 := by
        rw [onMessage_outcome, onMessage_outcome, hv, HashMap.lookup_only_self]
      refine congrArg some (State.ext hmessage (seen_lock (P := P) hfree).symm rfl rfl rfl rfl ?_)
      refine Eq.trans ?_ (log_seen (.delivered v x _) (if_pos hv))
      exact congrArg (fun outcome => _ ++ [Event.delivered v x outcome]) houtcome
    · exact absurd ‹_› hlock
  | onCallback pctx =>
    cases h
    exact congrArg some (State.ext rfl rfl rfl rfl rfl rfl
      (log_seen (.progressed pctx) (if_pos (of_decide_eq_true hc))))
  | onError err =>
    cases h
    refine congrArg some (State.ext rfl rfl rfl rfl rfl rfl (log_seen (.errored err) ?_))
    cases err with
    | snap v => exact if_pos (of_decide_eq_true hc)
    | _ => cases hc
  | onCanceled pctx =>
    simp only [handle, hside] at h ⊢
    cases h
    rfl

theorem handles_unseen (hside : e.side = .client) {callbacks : List Callback}
    (hc : ∀ callback ∈ callbacks, callback.about u = false)
    (h : callbacks.foldlM (handle e) s = some t) : t.seen P u = s.seen P u := by
  rw [← Runs.run_eq_foldlM] at h
  apply Runs.run_invariant (P := fun t => t.seen P u = s.seen P u) rfl _ h
  intro r callback r' hmem hr hstep
  exact (handle_unseen hside (hc callback hmem) hstep).trans hr

theorem handles_seen (hside : e.side = .client) {callbacks : List Callback}
    (hc : ∀ callback ∈ callbacks, callback.about u = true)
    (h : callbacks.foldlM (handle e) s = some t) (hlock : s.lock ≠ .poisoned) :
    callbacks.foldlM (handle e) (s.seen P u) = some (t.seen P u) := by
  induction callbacks generalizing s with
  | nil =>
    cases h
    rfl
  | cons callback rest ih =>
    obtain ⟨r, hr, hrest⟩ := Option.bind_eq_some_iff.mp h
    refine Option.bind_eq_some_iff.mpr ⟨r.seen P u, ?_, ?_⟩
    · exact handle_seen hside (hc callback (List.mem_cons_self ..)) hlock hr
    · refine ih (fun c hmem => hc c (List.mem_cons_of_mem _ hmem)) hrest ?_
      rwa [(handle_frame hr).1]

/-- A received message of another uuid, or none. -/
theorem receive_unseen (hside : e.side = .client) {m : WsMessage}
    {cancels : ProgressContext → Bool} (ha : (Action.receive m cancels).about e.protobuf u = false)
    (h : step e s (.receive m cancels) = some t) :
    t.seen e.protobuf u = s.seen e.protobuf u := by
  have hframe : (frameOf e.protobuf m.intoData).map Prod.fst ≠ some u := of_decide_eq_false ha
  simp only [step] at h
  split at h
  · have hcallbacks : ∀ callback ∈ (messageDispatch e.protobuf e.snap cancels s.contexts
        m.intoData).2, callback.about u = false := by
      cases hf : frameOf e.protobuf m.intoData with
      | none =>
        rw [dispatch_malformed hf]
        exact malformed_about _
      | some x =>
        obtain ⟨v, frame⟩ := x
        have hv : v ≠ u := by
          rintro rfl
          exact hframe (by rw [hf]; rfl)
        rw [dispatch_frame hf]
        intro callback hmem
        rw [callbacks_about _ _ _ _ _ callback hmem, decide_eq_false hv]
    refine (handles_unseen hside hcallbacks h).trans ?_
    exact State.ext rfl rfl rfl rfl (HashMap.only_congr (contexts_unseen hframe)) rfl
      (log_unseen (.received _) (if_neg hframe))
  · cases h

/-- A received message of `u`. -/
theorem receive_seen (hside : e.side = .client) {m : WsMessage}
    {cancels : ProgressContext → Bool} (ha : (Action.receive m cancels).about e.protobuf u = true)
    (hlock : s.lock ≠ .poisoned) (h : step e s (.receive m cancels) = some t) :
    step e (s.seen e.protobuf u) (.receive m cancels) = some (t.seen e.protobuf u) := by
  have hframe : (frameOf e.protobuf m.intoData).map Prod.fst = some u := of_decide_eq_true ha
  obtain ⟨⟨v, frame⟩, hf, hv⟩ := Option.map_eq_some_iff.mp hframe
  obtain rfl : v = u := hv
  simp only [step] at h ⊢
  split at h
  · rename_i htask
    rw [if_pos (show (s.seen e.protobuf v).task = .running from htask)]
    rw [dispatch_frame hf] at h ⊢
    have hcallbacks : ∀ callback ∈ MessageContext.callbacks e.snap cancels
        (s.contexts.lookup v) v frame, callback.about v = true := by
      intro callback hmem
      rw [callbacks_about _ _ _ _ _ callback hmem, decide_eq_true rfl]
    have hcontexts : Keyed.step MessageContext.next (HashMap.only v s.contexts) (v, frame) =
        HashMap.only v (Keyed.step MessageContext.next s.contexts (v, frame)) :=
      HashMap.only_comm (f := fun contexts => Keyed.step MessageContext.next contexts (v, frame))
        (g := fun context => MessageContext.next context frame)
        (fun contexts w => Keyed.lookup_step _ contexts (v, frame) w) _
    have hreceived := handles_seen (P := e.protobuf) hside hcallbacks h hlock
    have hlookup : (s.seen e.protobuf v).contexts.lookup v = s.contexts.lookup v :=
      HashMap.lookup_only_self v _
    rw [hlookup]
    refine Eq.trans (congrArg (fun r => List.foldlM (handle e) r _) ?_) hreceived
    exact State.ext rfl rfl rfl rfl hcontexts rfl (log_seen (.received _) (if_pos hframe))
  · cases h

/-! ### The two runs -/

theorem step_poisoned {a : Action} (h : step e s a = some t) (hs : s.lock = .poisoned) :
    t.lock = .poisoned :=
  step_events hs (fun _ _ _ hu hev => hev.poisoned_iff.mpr (.inl hu)) h

theorem step_seen (hside : e.side = .client) (hs : History e Allowed s) {a : Action}
    (hok : t.lock ≠ .poisoned) (ha : a.about e.protobuf u = true) (h : step e s a = some t) :
    step e (s.seen e.protobuf u) a = some (t.seen e.protobuf u) := by
  cases a with
  | receive m cancels => exact receive_seen hside ha (fun hs => hok (step_poisoned h hs)) h
  | _ =>
    obtain ⟨ev, hev⟩ := step_event h id
    exact hev.seen hside hs id ha hok

theorem step_unseen (hside : e.side = .client) (hs : History e Allowed s) {a : Action}
    (hok : t.lock ≠ .poisoned) (ha : a.about e.protobuf u = false) (h : step e s a = some t) :
    t.seen e.protobuf u = s.seen e.protobuf u := by
  cases a with
  | receive m cancels => exact receive_unseen hside ha h
  | _ =>
    obtain ⟨ev, hev⟩ := step_event h id
    exact hev.unseen hs id ha hok

theorem History.step (hs : History e (fun _ _ => True) s) {a : Action}
    (h : Wsmq.step e s a = some t) : History e (fun _ _ => True) t := by
  rcases step_occurs h with ⟨ev, hev⟩ | ⟨hreceive, hoccur⟩
  · exact .event hs (.inl trivial) hev
  · exact hs.occur hreceive hoccur

/-- The second run is in what `u` sees of the first. -/
def Sees (e : Endpoint) (u : Uuid) (s s' : State) : Prop :=
  History e (fun _ _ => True) s ∧ s' = s.seen e.protobuf u

theorem unwinding (hside : e.side = .client) (u : Uuid) :
    Runs.Unwinding (step e) (Action.about e.protobuf u) (fun s => s.lock ≠ .poisoned)
      (Sees e u) where
  back := fun s a t h hok hs => hok (step_poisoned h hs)
  own := by
    rintro s - a t ⟨hs, rfl⟩ hok ha h
    exact ⟨_, step_seen hside hs hok ha h, hs.step h, rfl⟩
  other := by
    rintro s - a t ⟨hs, rfl⟩ hok ha h
    exact ⟨hs.step h, (step_unseen hside hs hok ha h).symm⟩

/-- **Requests do not influence each other**: without the actions about other uuids the
run of a client goes on as it did, and leaves of the log, the queue and the table what
was there under `u`. -/
theorem isolated (hside : e.side = .client) (u : Uuid) {actions : List Action}
    (hrun : Runs.run (step e) .init actions = some t) (hok : t.lock ≠ .poisoned) :
    Runs.run (step e) .init (actions.filter (Action.about e.protobuf u)) =
      some (t.seen e.protobuf u) := by
  obtain ⟨t', hrun', -, rfl⟩ := (unwinding hside u).run ⟨.init, seen_init.symm⟩ hrun hok
  exact hrun'

/-- Two requests at once, the answer to one of them, and a string that is no frame. -/
def twoRequests : List Action := request exampleCall ++ request otherCall ++
  [.poll exampleCall 0, .poll otherCall 0, .receive (.ping [255]) fun _ => false,
    incoming otherCall.uuid [9], .poll otherCall 1, .poll exampleCall 2]

theorem isolated_twoRequests : ∃ t, Runs.run (step exampleClient) .init twoRequests = some t ∧
    Runs.run (step exampleClient) .init (request exampleCall ++
      [.poll exampleCall 0, .poll exampleCall 2]) = some (t.seen .generated .nil) := by
  have hview : (Runs.run (step exampleClient) .init twoRequests).map State.lock =
      some .free := by decide +kernel
  have hfilter : twoRequests.filter (Action.about .generated .nil) =
      request exampleCall ++ [.poll exampleCall 0, .poll exampleCall 2] := by
    rfl
  obtain ⟨t, hrun, hlock⟩ := Option.map_eq_some_iff.mp hview
  refine ⟨t, hrun, ?_⟩
  rw [← hfilter]
  exact isolated rfl .nil hrun (by rw [hlock]; decide)

end Wsmq
