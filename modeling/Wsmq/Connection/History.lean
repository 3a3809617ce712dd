import Wsmq.Connection

/-! What each event says about the state it happened in.

`Occurs` lists the ways an event can be recorded, each with its guard and the state
it leaves; `step_occurs` says that a step is one of them, or for a received message
several in a row. What every event of a run keeps, the run keeps (`run_events`). A
`History` is a state with the events that led to it. The table entry of a uuid is a fold
of the log (`History.lookup`), and every event of the log happened in the state its
prefix describes (`History.cut`). -/
namespace Wsmq

variable {e : Endpoint}

/-- `Occurs e s a event t`: in state `s`, action `a` records `event` and leaves `t`. -/
inductive Occurs (e : Endpoint) (s : State) : Action → Event → State → Prop where
  | sent {c request} (hside : e.side = .client) (hidle : s.calls c = .idle)
      (hlock : s.lock = .free) (hnone : s.responses.lookup c.uuid = none) :
      Occurs e s (.send c request) (.opened c)
        ({s.setCall c (.sending (request.sending e.snap e.bandwidth c.uuid)) with
          responses := Response.register s.responses c.uuid}.record (.opened c))
  | unregistered {c request} (hside : e.side = .client) (hidle : s.calls c = .idle)
      (hlock : s.lock = .poisoned) (hnil : c.uuid = .nil) :
      Occurs e s (.send c request) (.unregistered c)
        ((s.setCall c (.sending (request.sending e.snap e.bandwidth c.uuid))).record
          (.unregistered c))
  | replied {c request} (hresponse : hasResponse c.uuid s.log) (hidle : s.calls c = .idle)
      (hlock : s.lock = .free) :
      Occurs e s (.reply c request) (.opened c)
        ({s.setCall c (.sending (request.sending e.snap e.bandwidth c.uuid)) with
          responses := Response.register s.responses c.uuid, lock := .held c}.record (.opened c))
  | replyFailed {c request} (hresponse : hasResponse c.uuid s.log) (hidle : s.calls c = .idle)
      (hlock : s.lock = .poisoned) : Occurs e s (.reply c request)
        (.returned c (.err .mutexError))
        ((s.setCall c .gone).record (.returned c (.err .mutexError)))
  | queued {c frame rest} (hcall : s.calls c = .sending (.queue frame rest))
      (hopen : s.task ≠ .ended) : Occurs e s (.push c) (.queued c frame)
        ({s.setCall c (.sending rest) with queue := s.queue ++ [frame]}.record (.queued c frame))
  | refused {c frame rest} (hcall : s.calls c = .sending (.queue frame rest))
      (hclosed : s.task = .ended) : Occurs e s (.push c) (.refused c frame)
        ((s.setCall c (.sending (.done (.err (.internalError .disconnected))))).record
          (.refused c frame))
  | returnedOk {c} (hcall : s.calls c = .sending (.done .ok)) :
      Occurs e s (.ret c) (.returned c .ok)
        (((s.setCall c .live).release c).record (.returned c .ok))
  | returnedErr {c err} (hcall : s.calls c = .sending (.done (.err err))) :
      Occurs e s (.ret c) (.returned c (.err err))
        (((s.setCall c .gone).release c).record (.returned c (.err err)))
  | panicked {c} (hcall : s.calls c = .sending (.done .panicked)) (hlock : s.lock ≠ .held c) :
      Occurs e s (.ret c) (.returned c .panicked)
        ((s.setCall c .gone).record (.returned c .panicked))
  | poisoned {c} (hcall : s.calls c = .sending (.done .panicked)) (hlock : s.lock = .held c) :
      Occurs e s (.ret c) (.poisoned c)
        ({s.setCall c .gone with lock := .poisoned}.record (.poisoned c))
  | polled {f w} (hlive : s.calls f = .live) (hlock : s.lock = .free) :
      Occurs e s (.poll f w) (.polled f w (ResponseFuture.poll s.responses f.uuid w).1)
        ({s with responses := (ResponseFuture.poll s.responses f.uuid w).2}.record
          (.polled f w (ResponseFuture.poll s.responses f.uuid w).1))
  | pollFailed {f w} (hlive : s.calls f = .live) (hlock : s.lock = .poisoned) :
      Occurs e s (.poll f w) (.polled f w (.readyErr .mutexError))
        (s.record (.polled f w (.readyErr .mutexError)))
  | dropped {f} (hlive : s.calls f = .live) (hlock : s.lock = .free) :
      Occurs e s (.drop f) (.dropped f true)
        ({s.setCall f .gone with responses := ResponseFuture.drop s.responses f.uuid}.record
          (.dropped f true))
  | dropFailed {f} (hlive : s.calls f = .live) (hlock : s.lock = .poisoned) :
      Occurs e s (.drop f) (.dropped f false) ((s.setCall f .gone).record (.dropped f false))
  | received {m cancels} (htask : s.task = .running) : Occurs e s (.receive m cancels)
        (.received m.intoData)
        ({s with contexts := (messageDispatch e.protobuf e.snap cancels s.contexts
          m.intoData).1}.record (.received m.intoData))
  | progressed {m cancels} (pctx : ProgressContext) :
      Occurs e s (.receive m cancels) (.progressed pctx) (s.record (.progressed pctx))
  | errored {m cancels} (err : DispatchError) :
      Occurs e s (.receive m cancels) (.errored err) (s.record (.errored err))
  | canceled {m cancels} (pctx : ProgressContext) (hside : e.side = .server)
      (hopen : s.task ≠ .ended) : Occurs e s (.receive m cancels)
        (.canceled pctx) ({s with task := .selected}.record (.canceled pctx))
  | handed {m cancels} (u : Uuid) (x : Bytes) (hside : e.side = .server) :
      Occurs e s (.receive m cancels) (.delivered u x .handed)
        (s.record (.delivered u x .handed))
  | delivered {m cancels} (u : Uuid) (x : Bytes) (hside : e.side = .client)
      (hlock : s.lock = .free) :
      Occurs e s (.receive m cancels) (.delivered u x (Client.onMessage s.responses u x).2)
        ({s with responses := (Client.onMessage s.responses u x).1}.record
          (.delivered u x (Client.onMessage s.responses u x).2))
  | deliverFailed {m cancels} (u : Uuid) (x : Bytes) (hside : e.side = .client)
      (hlock : s.lock = .poisoned) :
      Occurs e s (.receive m cancels) (.delivered u x .mutexError)
        (s.record (.delivered u x .mutexError))
  | selected (htask : s.task = .running) :
      Occurs e s .select .selected ({s with task := .selected}.record .selected)
  | clearWoke (hside : e.side = .client) (htask : s.task = .selected) (hlock : s.lock = .free) :
      Occurs e s .clearWake (.clearWoke (SharedData.startedWakers s.responses))
        ({s with task := .woke}.record (.clearWoke (SharedData.startedWakers s.responses)))
  | clearWakePanicked (hside : e.side = .client) (htask : s.task = .selected)
      (hlock : s.lock = .poisoned) : Occurs e s .clearWake .clearPanicked
        ({s with task := .ended}.record .clearPanicked)
  | clearEmptied (htask : s.task = .woke) (hlock : s.lock = .free) :
      Occurs e s .clearEmpty .clearEmptied
        ({s with responses := ∅, task := .cleared}.record .clearEmptied)
  | clearEmptyPanicked (htask : s.task = .woke) (hlock : s.lock = .poisoned) :
      Occurs e s .clearEmpty .clearPanicked ({s with task := .ended}.record .clearPanicked)
  | receiverDropped (htask : (e.side = .client ∧ s.task = .cleared) ∨
      (e.side = .server ∧ s.task = .selected)) :
      Occurs e s .dropReceiver .receiverDropped ({s with task := .ended}.record .receiverDropped)
  | aborted (hside : e.side = .client) (htask : s.task = .running) :
      Occurs e s .abort .aborted ({s with task := .ended}.record .aborted)

/-- Events recorded one after another. -/
inductive Occur (e : Endpoint) (a : Action) : State → State → Prop where
  | refl (s) : Occur e a s s
  | event {s t u ev} (h : Occurs e s a ev t) (rest : Occur e a t u) : Occur e a s u

def Action.isReceive : Action → Prop
  | .receive _ _ => True
  | _ => False

theorem Occur.trans {a : Action} {s t u : State} (h : Occur e a s t) (h' : Occur e a t u) :
    Occur e a s u := by
  induction h with
  | refl s => exact h'
  | event hev rest ih => exact .event hev (ih h')

/-- A callback touches the table, the task and the log only. -/
theorem handle_frame {s t : State} {callback : Callback} (h : handle e s callback = some t) :
    t.lock = s.lock ∧ t.queue = s.queue ∧ t.calls = s.calls ∧ t.contexts = s.contexts := by
  cases callback with
  | onMessage u x =>
    simp only [handle] at h
    split at h
    · cases h
      exact ⟨rfl, rfl, rfl, rfl⟩
    · split at h <;> cases h <;> exact ⟨rfl, rfl, rfl, rfl⟩
  | onCallback pctx | onError err =>
    cases h
    exact ⟨rfl, rfl, rfl, rfl⟩
  | onCanceled pctx =>
    simp only [handle] at h
    split at h <;> cases h <;> exact ⟨rfl, rfl, rfl, rfl⟩

theorem handle_occur {s t : State} {m : WsMessage} {cancels : ProgressContext → Bool}
    {callback : Callback} (hopen : s.task ≠ .ended) (h : handle e s callback = some t) :
    Occur e (.receive m cancels) s t ∧ t.task ≠ .ended := by
  cases callback with
  | onMessage u x =>
    simp only [handle] at h
    split at h
    · cases h
      exact ⟨.event (.handed u x ‹_›) (.refl _), hopen⟩
    · split at h
      · cases h
      · cases h
        exact ⟨.event (.delivered u x ‹_› ‹_›) (.refl _), hopen⟩
      · cases h
        exact ⟨.event (.deliverFailed u x ‹_› ‹_›) (.refl _), hopen⟩
  | onCallback pctx =>
    cases h
    exact ⟨.event (.progressed pctx) (.refl _), hopen⟩
  | onError err =>
    cases h
    exact ⟨.event (.errored err) (.refl _), hopen⟩
  | onCanceled pctx =>
    simp only [handle] at h
    split at h
    · cases h
      exact ⟨.refl _, hopen⟩
    · cases h
      exact ⟨.event (.canceled pctx ‹_› hopen) (.refl _), by simp⟩

theorem handles_occur {m : WsMessage} {cancels : ProgressContext → Bool}
    {callbacks : List Callback} {s t : State} (hopen : s.task ≠ .ended)
    (h : callbacks.foldlM (handle e) s = some t) : Occur e (.receive m cancels) s t := by
  induction callbacks generalizing s with
  | nil =>
    cases h
    exact .refl _
  | cons callback rest ih =>
    simp only [List.foldlM_cons, Option.bind_eq_bind, Option.bind_eq_some_iff] at h
    obtain ⟨u, hu, hrest⟩ := h
    obtain ⟨hoccur, hopen⟩ := handle_occur hopen hu
    exact hoccur.trans (ih hopen hrest)

/-- **A step, event by event.** -/
theorem step_occurs {s t : State} {a : Action} (h : step e s a = some t) :
    (∃ event, Occurs e s a event t) ∨ a.isReceive ∧ Occur e a s t := by
  cases a with
  | send c request =>
    simp only [step] at h
    split at h
    · rename_i hc
      split at h
      · cases h
      · obtain ⟨responses, hr, rfl⟩ := Option.map_eq_some_iff.mp h
        obtain ⟨hnone, rfl⟩ := generateUuid_eq _ _ hr
        exact .inl ⟨_, .sent hc.1 hc.2 ‹_› hnone⟩
      · split at h
        · cases h
          exact .inl ⟨_, .unregistered hc.1 hc.2 ‹_› ‹_›⟩
        · cases h
    · cases h
  | reply c request =>
    simp only [step] at h
    split at h
    · rename_i hc
      split at h
      · cases h
      · cases h
        exact .inl ⟨_, .replied hc.1 hc.2 ‹_›⟩
      · cases h
        exact .inl ⟨_, .replyFailed hc.1 hc.2 ‹_›⟩
    · cases h
  | push c =>
    simp only [step] at h
    split at h
    · split at h <;> cases h
      · exact .inl ⟨_, .refused ‹_› ‹_›⟩
      · exact .inl ⟨_, .queued ‹_› ‹_›⟩
    · cases h
  | ret c =>
    simp only [step] at h
    split at h
    · cases h
      exact .inl ⟨_, .returnedOk ‹_›⟩
    · cases h
      exact .inl ⟨_, .returnedErr ‹_›⟩
    · split at h <;> cases h
      · exact .inl ⟨_, .poisoned ‹_› ‹_›⟩
      · exact .inl ⟨_, .panicked ‹_› ‹_›⟩
    · cases h
  | poll f w =>
    simp only [step] at h
    split at h
    · split at h <;> cases h
      · exact .inl ⟨_, .polled ‹_› ‹_›⟩
      · exact .inl ⟨_, .pollFailed ‹_› ‹_›⟩
    · cases h
  | drop f =>
    simp only [step] at h
    split at h
    · split at h <;> cases h
      · exact .inl ⟨_, .dropped ‹_› ‹_›⟩
      · exact .inl ⟨_, .dropFailed ‹_› ‹_›⟩
    · cases h
  | receive m cancels =>
    simp only [step] at h
    split at h
    · rename_i htask
      exact .inr ⟨trivial, .event (.received htask)
        (handles_occur (by rw [State.record_task, htask]; decide) h)⟩
    · cases h
  | select =>
    simp only [step] at h
    split at h <;> cases h
    exact .inl ⟨_, .selected ‹_›⟩
  | clearWake =>
    simp only [step] at h
    split at h
    · rename_i hc
      split at h <;> cases h
      · exact .inl ⟨_, .clearWoke hc.1 hc.2 ‹_›⟩
      · exact .inl ⟨_, .clearWakePanicked hc.1 hc.2 ‹_›⟩
    · cases h
  | clearEmpty =>
    simp only [step] at h
    split at h
    · split at h <;> cases h
      · exact .inl ⟨_, .clearEmptied ‹_› ‹_›⟩
      · exact .inl ⟨_, .clearEmptyPanicked ‹_› ‹_›⟩
    · cases h
  | dropReceiver =>
    simp only [step] at h
    split at h <;> cases h
    rename_i hc
    exact .inl ⟨_, .receiverDropped hc⟩
  | abort =>
    simp only [step] at h
    split at h <;> cases h
    rename_i hc
    exact .inl ⟨_, .aborted hc.1 hc.2⟩

theorem step_event {s t : State} {a : Action} (h : step e s a = some t) (ha : ¬ a.isReceive) :
    ∃ ev, Occurs e s a ev t :=
  (step_occurs h).resolve_right fun hreceive => ha hreceive.1

theorem step_occur {s t : State} {a : Action} (h : step e s a = some t) : Occur e a s t := by
  obtain ⟨ev, hev⟩ | ⟨-, hoccur⟩ := step_occurs h
  · exact .event hev (.refl t)
  · exact hoccur

/-- Outside a received message the events are the steps. -/
theorem occurs_step {s t : State} {a : Action} {ev : Event} (h : Occurs e s a ev t)
    (ha : ¬ a.isReceive) : step e s a = some t := by
  cases h with
  | received | progressed | errored | canceled | handed | delivered | deliverFailed =>
    exact absurd trivial ha
  | sent hside hidle hlock hnone =>
    simp [step, hside, hidle, hlock, SharedData.generateUuid, Response.register, hnone]
  | unregistered hside hidle hlock hnil => simp [step, hside, hidle, hlock, hnil]
  | replied hresponse hidle hlock => simp [step, hresponse, hidle, hlock]
  | replyFailed hresponse hidle hlock => simp [step, hresponse, hidle, hlock]
  | queued hcall hopen => simp [step, hcall, hopen]
  | refused hcall hclosed => simp [step, hcall, hclosed]
  | returnedOk hcall | returnedErr hcall => simp [step, hcall]
  | panicked hcall hlock | poisoned hcall hlock => simp [step, hcall, hlock]
  | polled hlive hlock | pollFailed hlive hlock => simp [step, hlive, hlock]
  | dropped hlive hlock | dropFailed hlive hlock => simp [step, hlive, hlock]
  | selected htask => simp [step, htask]
  | clearWoke hside htask hlock | clearWakePanicked hside htask hlock =>
    simp [step, hside, htask, hlock]
  | clearEmptied htask hlock | clearEmptyPanicked htask hlock => simp [step, htask, hlock]
  | receiverDropped htask => simp [step, htask]
  | aborted hside htask => simp [step, hside, htask]

theorem step_to {s t t' : State} {a : Action} {ev : Event} (h : Occurs e s a ev t')
    (ha : ¬ a.isReceive) (ht : t' = t) : step e s a = some t :=
  (occurs_step h ha).trans (congrArg some ht)

theorem Occurs.log {s t : State} {a : Action} {ev : Event} (h : Occurs e s a ev t) :
    t.log = s.log ++ [ev] := by
  cases h <;> rfl

/-- The events from `s` to `t`. -/
def since (s t : State) : List Event := t.log.drop s.log.length

theorem since_eq {s t : State} {new : List Event} (h : t.log = s.log ++ new) : since s t = new := by
  rw [since, h, List.drop_left]

/-- What every event of a step keeps, the step keeps. -/
theorem step_events {P : State → Prop} {s t : State} {a : Action} (h : P s)
    (hevent : ∀ u ev v, P u → Occurs e u a ev v → P v) (hstep : step e s a = some t) : P t := by
  have hoccur := step_occur hstep
  clear hstep
  induction hoccur with
  | refl s => exact h
  | event hev rest ih => exact ih (hevent _ _ _ h hev)

theorem run_events {P : State → Prop} {s t : State} {actions : List Action} (h : P s)
    (hevent : ∀ u a ev v, a ∈ actions → P u → Occurs e u a ev v → P v)
    (hrun : Runs.run (step e) s actions = some t) : P t :=
  Runs.run_invariant h
    (fun _ a _ ha hs hstep => step_events hs (fun u ev v => hevent u a ev v ha) hstep) hrun

/-! ### Histories -/

/-- The states of the runs whose actions are `Allowed`, event by event. A received
message may record several events, and only the first is in the state its action
was allowed in. -/
inductive History (e : Endpoint) (Allowed : State → Action → Prop) : State → Prop where
  | init : History e Allowed .init
  | event {s t a ev} (hs : History e Allowed s) (ha : Allowed s a ∨ a.isReceive)
      (h : Occurs e s a ev t) : History e Allowed t

variable {Allowed : State → Action → Prop} {s t : State} {l l' : List Event}

theorem History.occur {a : Action} (hs : History e Allowed s) (ha : a.isReceive)
    (h : Occur e a s t) : History e Allowed t := by
  induction h with
  | refl s => exact hs
  | event hev rest ih => exact ih (.event hs (.inr ha) hev)

theorem history_of_reachable (h : Runs.Reachable (step e) Allowed .init s) :
    History e Allowed s := by
  apply h.invariant .init
  intro s a t _ ih ha hstep
  obtain ⟨ev, hev⟩ | ⟨hreceive, hoccur⟩ := step_occurs hstep
  · exact .event ih (.inl ha) hev
  · exact ih.occur hreceive hoccur

theorem snoc_split {a : List Event} {x ev : Event} (h : l ++ [ev] = a ++ x :: l') :
    (l' = [] ∧ a = l ∧ x = ev) ∨ ∃ b, l' = b ++ [ev] ∧ l = a ++ x :: b := by
  rcases List.eq_nil_or_concat' l' with rfl | ⟨b, y, rfl⟩
  · obtain ⟨rfl, hx⟩ := List.append_inj' h rfl
    cases hx
    exact .inl ⟨rfl, rfl, rfl⟩
  · rw [← List.cons_append, ← List.append_assoc] at h
    obtain ⟨rfl, hx⟩ := List.append_inj' h rfl
    cases hx
    exact .inr ⟨b, rfl, rfl⟩

/-- What a run of given actions shows, a reachable state shows. -/
theorem reachable_of_view {β : Type} (view : State → β) {actions : List Action} {b : β}
    (h : (Runs.run (step e) .init actions).map view = some b) :
    ∃ s, Runs.Reachable (step e) (fun _ _ => True) .init s ∧ view s = b := by
  obtain ⟨s, hs, hview⟩ := Option.map_eq_some_iff.mp h
  exact ⟨s, Runs.Reachable.init.run (fun _ _ _ => trivial) hs, hview⟩

theorem reachable_of_log {actions : List Action} {log : List Event}
    (h : (Runs.run (step e) .init actions).map State.log = some log) :
    ∃ s, Runs.Reachable (step e) (fun _ _ => True) .init s ∧ s.log = log :=
  reachable_of_view State.log h

/-- **Every event of a log happened in a state that the events before it made.** -/
theorem History.cut (h : History e Allowed s) {ev : Event} (hlog : s.log = l ++ ev :: l') :
    ∃ s₀ a t₀, History e Allowed s₀ ∧ s₀.log = l ∧ (Allowed s₀ a ∨ a.isReceive) ∧
      Occurs e s₀ a ev t₀ ∧ History e Allowed t₀ := by
  induction h generalizing l' with
  | init => simp [State.init] at hlog
  | event hs ha hev ih =>
    rw [hev.log] at hlog
    rcases snoc_split hlog with ⟨-, rfl, rfl⟩ | ⟨b, -, hlog⟩
    · exact ⟨_, _, _, hs, rfl, ha, hev, .event hs ha hev⟩
    · exact ih hlog

/-! ### The entry of a uuid -/

/-- What an event does to the entry of `u`. -/
def Event.entry (u : Uuid) (entry : Option Status) : Event → Option Status
  | .opened c => if u = c.uuid then Entry.register entry else entry
  | .polled _ _ (.readyErr .mutexError) => entry
  | .polled f w _ => if u = f.uuid then Entry.poll w entry else entry
  | .dropped f true => if u = f.uuid then none else entry
  | .delivered v x (.woke _) => if u = v then Entry.deliver x entry else entry
  | .delivered v x .discarded => if u = v then Entry.deliver x entry else entry
  | .clearEmptied => none
  | _ => entry

def entryAt (u : Uuid) (log : List Event) : Option Status := log.foldl (Event.entry u) none

theorem entryAt_append (u : Uuid) (a b : List Event) :
    entryAt u (a ++ b) = b.foldl (Event.entry u) (entryAt u a) :=
  List.foldl_append

theorem result_ne_mutexError (u : Uuid) (entry : Option Status) :
    Entry.result u entry ≠ .readyErr .mutexError := by
  rcases entry with - | - | - | - <;> simp [Entry.result]

theorem Event.entry_polled (u : Uuid) (entry : Option Status) (f : Ticket) (w : Waker) (r : Poll)
    (hr : r ≠ .readyErr .mutexError) : Event.entry u entry (.polled f w r) =
      if u = f.uuid then Entry.poll w entry else entry := by
  unfold Event.entry
  split <;> simp_all

theorem Event.entry_delivered (u : Uuid) (entry : Option Status) (v : Uuid) (x : Bytes)
    (before : Option Status) : Event.entry u entry (.delivered v x (Entry.outcome before)) =
      if u = v then Entry.deliver x entry else entry := by
  rcases before with - | - | - | - <;> rfl

theorem Occurs.lookup {a : Action} {ev : Event} (h : Occurs e s a ev t) (u : Uuid) :
    t.responses.lookup u = Event.entry u (s.responses.lookup u) ev := by
  cases h with
  | sent => exact lookup_register ..
  | replied => exact lookup_register ..
  | polled =>
    rw [poll_result, Event.entry_polled _ _ _ _ _ (result_ne_mutexError _ _)]
    exact lookup_poll ..
  | dropped => exact lookup_drop ..
  | delivered u x =>
    rw [onMessage_outcome, Event.entry_delivered]
    exact lookup_onMessage ..
  | returnedOk hcall => rfl
  | returnedErr hcall => rfl
  | _ => rfl

/-- **The table is the log**, read for each uuid. -/
theorem History.lookup (h : History e Allowed s) (u : Uuid) :
    s.responses.lookup u = entryAt u s.log := by
  induction h with
  | init => rfl
  | event hs ha hev ih => rw [hev.lookup, hev.log, entryAt_append, ← ih]; rfl

/-- What a stretch of events keeps of an entry, when each of them keeps it where it
stands. -/
theorem entryAt_stretch {P : Option Status → Prop} {u : Uuid} {l l' : List Event}
    (hl : P (entryAt u l)) (hstep : ∀ b ev c, l' = b ++ ev :: c → P (entryAt u (l ++ b)) →
      P (Event.entry u (entryAt u (l ++ b)) ev)) : P (entryAt u (l ++ l')) := by
  induction l' using List.reverseRecOn with
  | nil => rwa [List.append_nil]
  | append_singleton b ev ih =>
    rw [← List.append_assoc, entryAt_append]
    refine hstep b ev [] rfl (ih fun b' ev' c hb => hstep b' ev' (c ++ [ev]) ?_)
    rw [hb]
    simp

/-- The events that do something to the entry of `u`, and what. -/
inductive Touch (u : Uuid) : Event → (Option Status → Option Status) → Prop where
  | opened {c : Ticket} (hu : u = c.uuid) : Touch u (.opened c) Entry.register
  | polled {f : Ticket} {w : Waker} {r : Poll} (hu : u = f.uuid) :
      Touch u (.polled f w r) (Entry.poll w)
  | dropped {f : Ticket} (hu : u = f.uuid) : Touch u (.dropped f true) fun _ => none
  | delivered (x : Bytes) (outcome : Outcome) :
      Touch u (.delivered u x outcome) (Entry.deliver x)
  | emptied : Touch u .clearEmptied fun _ => none
  | other (ev : Event) : Touch u ev id

theorem touch (u : Uuid) (ev : Event) :
    ∃ g, Touch u ev g ∧ ∀ entry, Event.entry u entry ev = g entry := by
  have hother : (∀ entry, Event.entry u entry ev = entry) →
      ∃ g, Touch u ev g ∧ ∀ entry, Event.entry u entry ev = g entry := fun h => ⟨id, .other ev, h⟩
  cases ev with
  | opened c =>
    by_cases hu : u = c.uuid
    · exact ⟨_, .opened hu, fun _ => if_pos hu⟩
    · exact hother fun _ => if_neg hu
  | polled f w r =>
    by_cases hr : r = .readyErr .mutexError
    · subst hr
      exact hother fun _ => rfl
    · by_cases hu : u = f.uuid
      · exact ⟨_, .polled hu, fun _ => by rw [Event.entry_polled _ _ _ _ _ hr, if_pos hu]⟩
      · exact hother fun _ => by rw [Event.entry_polled _ _ _ _ _ hr, if_neg hu]
  | dropped f removed =>
    cases removed with
    | false => exact hother fun _ => rfl
    | true =>
      by_cases hu : u = f.uuid
      · exact ⟨_, .dropped hu, fun _ => if_pos hu⟩
      · exact hother fun _ => if_neg hu
  | delivered v x outcome =>
    by_cases hu : u = v
    · subst hu
      cases outcome with
      | woke w => exact ⟨_, .delivered x _, fun _ => if_pos rfl⟩
      | discarded => exact ⟨_, .delivered x _, fun _ => if_pos rfl⟩
      | mutexError => exact hother fun _ => rfl
      | handed => exact hother fun _ => rfl
    · cases outcome with
      | woke w => exact hother fun _ => if_neg hu
      | discarded => exact hother fun _ => if_neg hu
      | mutexError => exact hother fun _ => rfl
      | handed => exact hother fun _ => rfl
  | clearEmptied => exact ⟨_, .emptied, fun _ => rfl⟩
  | _ => exact hother fun _ => rfl

/-! ### The mutex -/

/-- A call panicked with the table locked. -/
def Poisoned (log : List Event) : Prop := ∃ c, .poisoned c ∈ log

theorem Occurs.poisoned_iff {a : Action} {ev : Event} (h : Occurs e s a ev t) :
    t.lock = .poisoned ↔ s.lock = .poisoned ∨ ∃ c, ev = .poisoned c := by
  cases h with
  | poisoned hcall hlock => simp [State.record]
  | replied hresponse hidle hlock => simp [State.record, hlock]
  | @returnedOk c hcall | @returnedErr c err hcall =>
    rw [State.record_lock, State.release_lock]
    by_cases hc : s.lock = .held c <;> simp [hc]
  | _ => simp

theorem History.poisoned_iff (h : History e Allowed s) :
    s.lock = .poisoned ↔ Poisoned s.log := by
  induction h with
  | init => simp [State.init, Poisoned]
  | event hs ha hev ih =>
    rw [hev.poisoned_iff, ih, hev.log]
    simp [Poisoned, exists_or, eq_comm]

/-! ### The calls -/

/-- How far a call has come. -/
def Stage.rank : Stage → Nat
  | .idle => 0
  | .sending _ => 1
  | .live => 2
  | .gone => 3

/-- How far call `c` has come at least when the event has happened. -/
def Event.rank (c : Ticket) : Event → Nat
  | .opened d => if c = d then 1 else 0
  | .queued d _ => if c = d then 1 else 0
  | .returned d _ => if c = d then 2 else 0
  | .polled d _ _ => if c = d then 2 else 0
  | .dropped d _ => if c = d then 3 else 0
  | _ => 0

theorem rank_setCall {s : State} {d : Ticket} {stage : Stage}
    (h : (s.calls d).rank ≤ stage.rank) (c : Ticket) :
    (s.calls c).rank ≤ ((s.setCall d stage).calls c).rank := by
  rw [State.setCall_calls]
  by_cases hc : c = d
  · rwa [if_pos hc, hc]
  · rw [if_neg hc]

theorem Occurs.rank_le {a : Action} {ev : Event} (h : Occurs e s a ev t) (c : Ticket) :
    (s.calls c).rank ≤ (t.calls c).rank := by
  cases h with
  | sent hside hidle | unregistered hside hidle | replied hresponse hidle
  | replyFailed hresponse hidle =>
    refine rank_setCall ?_ c
    rw [hidle]
    exact Nat.zero_le _
  | queued hcall | refused hcall | returnedOk hcall | returnedErr hcall | panicked hcall
  | poisoned hcall =>
    refine rank_setCall ?_ c
    rw [hcall]
    simp [Stage.rank]
  | dropped hlive | dropFailed hlive =>
    refine rank_setCall ?_ c
    rw [hlive]
    decide
  | _ => exact Nat.le_refl _

/-- A future that is live, and was there before, was live before. -/
theorem Occurs.live_before {a : Action} {ev : Event} (h : Occurs e s a ev t) {f : Ticket}
    (hlive : t.calls f = .live) (hbefore : 2 ≤ (s.calls f).rank) : s.calls f = .live := by
  have hle := h.rank_le f
  rw [hlive] at hle
  cases hstage : s.calls f with
  | live => rfl
  | _ => simp [hstage, Stage.rank] at hle hbefore

/-- A future that was live stays so, but for its own drop. -/
theorem Occurs.live_after {a : Action} {ev : Event} (h : Occurs e s a ev t) {g : Ticket}
    (hlive : s.calls g = .live) (hdrop : ∀ removed, ev ≠ .dropped g removed) :
    t.calls g = .live := by
  have hother : ∀ {c : Ticket} {stage : Stage}, s.calls c ≠ .live →
      (s.setCall c stage).calls g = .live := by
    intro c stage hc
    rw [State.setCall_calls, if_neg, hlive]
    rintro rfl
    exact hc hlive
  cases h with
  | sent _ hcall | unregistered _ hcall | replied _ hcall | replyFailed _ hcall | queued hcall
  | refused hcall | returnedOk hcall | returnedErr hcall | panicked hcall | poisoned hcall =>
    exact hother fun hc => by cases hc.symm.trans hcall
  | dropped | dropFailed =>
    refine (State.setCall_calls ..).trans ((if_neg ?_).trans hlive)
    rintro rfl
    exact hdrop _ rfl
  | _ => exact hlive

theorem Occurs.event_rank {a : Action} {ev : Event} (h : Occurs e s a ev t) (c : Ticket) :
    ev.rank c ≤ (t.calls c).rank := by
  cases h with
  | polled hlive | pollFailed hlive =>
    simp only [Event.rank]
    split
    · rename_i hc
      simp [hc, hlive, Stage.rank]
    · exact Nat.zero_le _
  | sent | replied | replyFailed | queued | returnedOk | returnedErr | panicked | dropped
  | dropFailed =>
    simp only [Event.rank, State.record_calls, State.release_calls, State.setCall_calls]
    split <;> simp [Stage.rank]
  | _ => exact Nat.zero_le _

theorem History.rank_le (h : History e Allowed s) {ev : Event} (hev : ev ∈ s.log) (c : Ticket) :
    ev.rank c ≤ (s.calls c).rank := by
  induction h with
  | init => cases hev
  | event hs ha hoccurs ih =>
    rw [hoccurs.log] at hev
    rcases List.mem_append.mp hev with hev | hev
    · exact (ih hev).trans (hoccurs.rank_le c)
    · cases List.mem_singleton.mp hev
      exact hoccurs.event_rank c

/-- The call that an event opens. -/
def Event.openedCall : Event → Option Ticket
  | .opened c => some c
  | _ => none

def openedCalls (log : List Event) : List Ticket := log.filterMap Event.openedCall

theorem mem_openedCalls {log : List Event} {c : Ticket} :
    c ∈ openedCalls log ↔ .opened c ∈ log := by
  constructor
  · intro h
    obtain ⟨ev, hmem, hev⟩ := List.mem_filterMap.mp h
    cases ev <;> cases hev
    exact hmem
  · exact fun h => List.mem_filterMap.mpr ⟨_, h, rfl⟩

/-- A call begins by opening its uuid, unless the table is poisoned. -/
theorem Occurs.begun {a : Action} {ev : Event} (h : Occurs e s a ev t) (hlock : s.lock ≠ .poisoned)
    {c : Ticket} (hidle : s.calls c = .idle) (hbegun : t.calls c ≠ .idle) : ev = .opened c := by
  have hself : ∀ {d : Ticket} {stage : Stage}, (s.setCall d stage).calls c ≠ .idle → d = c := by
    intro d stage hcall
    by_contra hne
    rw [State.setCall_calls, if_neg (Ne.symm hne)] at hcall
    exact hcall hidle
  cases h with
  | sent | replied => rw [hself hbegun]
  | unregistered hside hidle' hpoisoned | replyFailed hresponse hidle' hpoisoned =>
    exact absurd hpoisoned hlock
  | queued hcall | refused hcall | returnedOk hcall | returnedErr hcall | panicked hcall
  | poisoned hcall =>
    cases hself hbegun
    cases hidle.symm.trans hcall
  | dropped hlive | dropFailed hlive =>
    cases hself hbegun
    cases hidle.symm.trans hlive
  | _ => exact absurd hidle hbegun

/-- A call that has begun has opened its uuid. -/
theorem History.begun_opened (h : History e Allowed s) (hlock : s.lock ≠ .poisoned) {c : Ticket}
    (hbegun : s.calls c ≠ .idle) : .opened c ∈ s.log := by
  induction h with
  | init => exact absurd rfl hbegun
  | @event s t a ev hs ha hev ih =>
    have hbefore : s.lock ≠ .poisoned := fun hp => hlock (hev.poisoned_iff.mpr (.inl hp))
    rw [hev.log]
    by_cases hidle : s.calls c = .idle
    · rw [hev.begun hbefore hidle hbegun]
      exact List.mem_append_right _ (List.mem_singleton_self _)
    · exact List.mem_append_left _ (ih hbefore hidle)

/-- A live future was not dropped. -/
theorem History.undropped (h : History e Allowed s) {f : Ticket} (hlive : s.calls f = .live)
    (removed : Bool) : .dropped f removed ∉ s.log := by
  intro hmem
  have hrank := h.rank_le hmem f
  simp [Event.rank, hlive, Stage.rank] at hrank

/-! ### What an event of the log says about the events before it -/

theorem Occurs.polled_inv {a : Action} {f : Ticket} {w : Waker} {r : Poll}
    (h : Occurs e s a (.polled f w r) t) : a = .poll f w ∧ s.calls f = .live ∧
      ((s.lock = .poisoned ∧ r = .readyErr .mutexError) ∨
        (s.lock = .free ∧ r = Entry.result f.uuid (s.responses.lookup f.uuid))) := by
  cases h with
  | polled hlive hlock => exact ⟨rfl, hlive, .inr ⟨hlock, poll_result ..⟩⟩
  | pollFailed hlive hlock => exact ⟨rfl, hlive, .inl ⟨hlock, rfl⟩⟩

theorem Occurs.polled_task {a : Action} {f : Ticket} {w : Waker} {r : Poll}
    (h : Occurs e s a (.polled f w r) t) : t.task = s.task := by
  cases h <;> rfl

theorem History.polled (h : History e Allowed s) {f : Ticket} {w : Waker} {r : Poll}
    (hlog : s.log = l ++ .polled f w r :: l') :
    (Poisoned l ∧ r = .readyErr .mutexError) ∨
      (¬ Poisoned l ∧ r = Entry.result f.uuid (entryAt f.uuid l)) := by
  obtain ⟨s₀, a, t₀, hs₀, rfl, -, hoccurs, -⟩ := h.cut hlog
  rw [← hs₀.poisoned_iff, ← hs₀.lookup]
  obtain ⟨-, -, hp | ⟨hlock, hr⟩⟩ := hoccurs.polled_inv
  · exact .inl hp
  · exact .inr ⟨by rw [hlock]; decide, hr⟩

theorem Occurs.delivered_inv (hside : e.side = .client) {a : Action} {u : Uuid} {x : Bytes}
    {outcome : Outcome} (h : Occurs e s a (.delivered u x outcome) t) :
    (s.lock = .poisoned ∧ outcome = .mutexError) ∨
      (s.lock = .free ∧ outcome = Entry.outcome (s.responses.lookup u)) := by
  cases h with
  | handed _ _ hserver => cases hside.symm.trans hserver
  | delivered _ _ _ hlock => exact .inr ⟨hlock, onMessage_outcome ..⟩
  | deliverFailed _ _ _ hlock => exact .inl ⟨hlock, rfl⟩

theorem History.delivered (hside : e.side = .client) (h : History e Allowed s) {u : Uuid}
    {x : Bytes} {outcome : Outcome} (hlog : s.log = l ++ .delivered u x outcome :: l') :
    (Poisoned l ∧ outcome = .mutexError) ∨
      (¬ Poisoned l ∧ outcome = Entry.outcome (entryAt u l)) := by
  obtain ⟨s₀, a, t₀, hs₀, rfl, -, hoccurs, -⟩ := h.cut hlog
  rw [← hs₀.poisoned_iff, ← hs₀.lookup]
  rcases hoccurs.delivered_inv hside with hp | ⟨hlock, houtcome⟩
  · exact .inl hp
  · exact .inr ⟨by rw [hlock]; decide, houtcome⟩

theorem History.clearWoke (h : History e Allowed s) {wakers : Multiset (Uuid × Waker)}
    (hlog : s.log = l ++ .clearWoke wakers :: l') :
    ¬ Poisoned l ∧ ∀ u w, (u, w) ∈ wakers ↔ entryAt u l = some (.started w) := by
  obtain ⟨s₀, a, t₀, hs₀, rfl, -, hoccurs, -⟩ := h.cut hlog
  rw [← hs₀.poisoned_iff]
  cases hoccurs with
  | clearWoke hside htask hlock =>
    refine ⟨by rw [hlock]; decide, fun u w => ?_⟩
    rw [mem_startedWakers, hs₀.lookup]

theorem History.clearPanicked (h : History e Allowed s) (hlog : s.log = l ++ .clearPanicked :: l') :
    Poisoned l := by
  obtain ⟨s₀, a, t₀, hs₀, rfl, -, hoccurs, -⟩ := h.cut hlog
  rw [← hs₀.poisoned_iff]
  cases hoccurs with
  | clearWakePanicked hside htask hlock => exact hlock
  | clearEmptyPanicked htask hlock => exact hlock

/-- A future is polled only after its frames were queued. -/
theorem History.queued (h : History e Allowed s) {c : Ticket} {frame : Frame}
    (hlog : s.log = l ++ .queued c frame :: l') {w : Waker} {r : Poll} : .polled c w r ∉ l := by
  obtain ⟨s₀, a, t₀, hs₀, rfl, -, hoccurs, -⟩ := h.cut hlog
  intro hmem
  have hrank := hs₀.rank_le hmem c
  cases hoccurs with
  | queued hcall hopen => simp [Event.rank, hcall, Stage.rank] at hrank

end Wsmq
