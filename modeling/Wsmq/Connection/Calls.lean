import Wsmq.Connection.Server
import Wsmq.Sender.Shape

/-! One call, from its opening to its return.

Other threads run between any two frames of a call, and none of them moves it
(`CallStep`). So wherever a run stands, what the call has queued and what it still has to
do make up what it set out to do, unless the queue refused a frame of it (`Progress`).
A call that succeeds has then queued everything, and no more (`send_shape`). -/
namespace Wsmq

variable {e : Endpoint} {s t : State} {c : Ticket}

/-- The frame that any call queued, and the one that call `c` queued. -/
def Event.queuedFrame : Event → Option Frame
  | .queued _ frame => some frame
  | _ => none

def Event.queuedBy (c : Ticket) : Event → Option Frame
  | .queued d frame => if d = c then some frame else none
  | _ => none

/-- How the call ended. -/
def Event.returnOf (c : Ticket) : Event → Option Return
  | .returned d r => if d = c then some r else none
  | .poisoned d => if d = c then some .panicked else none
  | _ => none

def queuedFrames (log : List Event) : List Frame := log.filterMap Event.queuedFrame

def queuedBy (c : Ticket) (log : List Event) : List Frame := log.filterMap (Event.queuedBy c)

def returnsOf (c : Ticket) (log : List Event) : List Return := log.filterMap (Event.returnOf c)

/-- The queue refused a frame of the call. -/
def Refused (c : Ticket) (log : List Event) : Prop := ∃ frame, .refused c frame ∈ log

/-- A step of the call itself, after its first. -/
def Action.OwnOf (c : Ticket) : Action → Prop
  | .push d => d = c
  | .ret d => d = c
  | _ => False

/-! ### One event -/

/-- The event is not one of the call. -/
structure Event.Foreign (c : Ticket) (ev : Event) : Prop where
  queued : ev.queuedBy c = none
  returned : ev.returnOf c = none
  refused : ∀ frame, ev ≠ .refused c frame

/-- What an event is to a call that has begun. -/
inductive CallStep (s : State) (c : Ticket) : Stage → Event → Stage → Prop where
  | foreign {stage ev} (h : ev.Foreign c) : CallStep s c stage ev stage
  | queued {frame rest} (hopen : s.task ≠ .ended) :
      CallStep s c (.sending (.queue frame rest)) (.queued c frame) (.sending rest)
  | refused {frame rest} (hclosed : s.task = .ended) :
      CallStep s c (.sending (.queue frame rest)) (.refused c frame)
        (.sending (.done (.err (.internalError .disconnected))))
  | returned {r ev stage} (hev : ev.returnOf c = some r) (hqueued : ev.queuedBy c = none)
      (hrefused : ∀ frame, ev ≠ .refused c frame) (hstage : 2 ≤ stage.rank) :
      CallStep s c (.sending (.done r)) ev stage
  | dropped {ev} (h : ev.Foreign c) : CallStep s c .live ev .gone

theorem Occurs.callStep {a : Action} {ev : Event} (h : Occurs e s a ev t)
    (hbegun : s.calls c ≠ .idle) : CallStep s c (s.calls c) ev (t.calls c) := by
  -- An event of another call.
  have hother : ∀ {d : Ticket} {stage : Stage}, (c = d → CallStep s c (s.calls c) ev stage) →
      (c ≠ d → ev.Foreign c) → CallStep s c (s.calls c) ev ((s.setCall d stage).calls c) := by
    intro d stage hown hforeign
    rw [State.setCall_calls]
    by_cases hcd : c = d
    · rw [if_pos hcd]
      exact hown hcd
    · rw [if_neg hcd]
      exact .foreign (hforeign hcd)
  cases h with
  | sent hside hidle | unregistered hside hidle | replied hresponse hidle
  | replyFailed hresponse hidle =>
    refine hother (fun hcd => absurd (hcd ▸ hidle) hbegun) fun hcd => ?_
    exact ⟨rfl, by simp [Event.returnOf, Ne.symm hcd], fun frame h => by cases h⟩
  | @queued d frame rest hcall hopen =>
    refine hother (fun hcd => ?_) fun hcd => ?_
    · subst hcd
      rw [hcall]
      exact .queued hopen
    · exact ⟨if_neg (Ne.symm hcd), rfl, fun frame h => by cases h⟩
  | @refused d frame rest hcall hclosed =>
    refine hother (fun hcd => ?_) fun hcd => ?_
    · subst hcd
      rw [hcall]
      exact .refused hclosed
    · refine ⟨rfl, rfl, fun frame h => ?_⟩
      cases h
      exact hcd rfl
  | @returnedOk d hcall | @returnedErr d err hcall | @panicked d hcall hlock
  | @poisoned d hcall hlock =>
    refine hother (fun hcd => ?_) fun hcd => ?_
    · subst hcd
      rw [hcall]
      exact .returned (if_pos rfl) rfl (fun frame h => by cases h) (by decide)
    · exact ⟨rfl, if_neg (Ne.symm hcd), fun frame h => by cases h⟩
  | @dropped f hlive hlock | @dropFailed f hlive hlock =>
    refine hother (fun hcd => ?_) fun hcd => ?_
    · subst hcd
      rw [hlive]
      exact .dropped ⟨rfl, rfl, fun frame h => by cases h⟩
    · exact ⟨rfl, rfl, fun frame h => by cases h⟩
  | _ => exact .foreign ⟨rfl, rfl, fun frame h => by cases h⟩

/-! ### A call along a run -/

variable {all : Sending} {new base : List Event} {stage stage' : Stage} {ev : Event}

theorem filterMap_snoc {α : Type} (f : Event → Option α) :
    (new ++ [ev]).filterMap f = new.filterMap f ++ (f ev).toList := by
  rw [List.filterMap_append, List.filterMap_cons, List.filterMap_nil]
  cases f ev <;> rfl

theorem queuedBy_snoc : queuedBy c (new ++ [ev]) = queuedBy c new ++ (ev.queuedBy c).toList :=
  filterMap_snoc (Event.queuedBy c)

theorem returnsOf_snoc : returnsOf c (new ++ [ev]) = returnsOf c new ++ (ev.returnOf c).toList :=
  filterMap_snoc (Event.returnOf c)

theorem Refused.snoc (h : Refused c new) : Refused c (new ++ [ev]) := by
  obtain ⟨frame, hmem⟩ := h
  exact ⟨frame, List.mem_append_left _ hmem⟩

/-- What the events `new` say of a call that set out to do `all`, at each of its stages. -/
inductive Progress (c : Ticket) (all : Sending) (new : List Event) : Stage → Prop where
  | sending {rest} (hframes : queuedBy c new ++ rest.frames = all.frames)
      (hresult : rest.result = all.result) (hreturns : returnsOf c new = []) :
      Progress c all new (.sending rest)
  | refused (hrefused : Refused c new) (hreturns : returnsOf c new = []) :
      Progress c all new (.sending (.done (.err (.internalError .disconnected))))
  | ended {stage r} (hstage : 2 ≤ stage.rank) (hreturns : returnsOf c new = [r])
      (hall : (queuedBy c new = all.frames ∧ r = all.result) ∨
        (Refused c new ∧ r = .err (.internalError .disconnected))) : Progress c all new stage

theorem rank_sending (rest : Sending) : ¬ 2 ≤ (Stage.sending rest).rank := by
  show ¬ 2 ≤ 1
  decide

theorem Progress.begun (h : Progress c all new stage) : stage ≠ .idle := by
  cases h with
  | sending | refused => exact fun h => by cases h
  | ended hstage =>
    rintro rfl
    exact absurd hstage (by decide)

theorem Progress.foreign (h : Progress c all new stage) (hev : ev.Foreign c)
    (hstage : stage' = stage ∨ (2 ≤ stage.rank ∧ 2 ≤ stage'.rank)) :
    Progress c all (new ++ [ev]) stage' := by
  have hqueued : queuedBy c (new ++ [ev]) = queuedBy c new := by
    rw [queuedBy_snoc, hev.queued]
    exact List.append_nil _
  have hreturned : returnsOf c (new ++ [ev]) = returnsOf c new := by
    rw [returnsOf_snoc, hev.returned]
    exact List.append_nil _
  cases h with
  | sending hframes hresult hreturns =>
    obtain rfl | ⟨hrank, -⟩ := hstage
    · exact .sending (hqueued ▸ hframes) hresult (hreturned.trans hreturns)
    · exact absurd hrank (rank_sending _)
  | refused hrefused hreturns =>
    obtain rfl | ⟨hrank, -⟩ := hstage
    · exact .refused hrefused.snoc (hreturned.trans hreturns)
    · exact absurd hrank (rank_sending _)
  | ended hrank hreturns hall =>
    have hrank' : 2 ≤ stage'.rank := by
      obtain rfl | ⟨-, hrank'⟩ := hstage
      · exact hrank
      · exact hrank'
    refine .ended hrank' (hreturned.trans hreturns) ?_
    rw [hqueued]
    exact hall.imp_right fun ⟨hrefused, hr⟩ => ⟨hrefused.snoc, hr⟩

theorem Progress.step (h : Progress c all new stage) (hstep : CallStep s c stage ev stage') :
    Progress c all (new ++ [ev]) stage' := by
  cases hstep with
  | foreign hev => exact h.foreign hev (.inl rfl)
  | dropped hev => exact h.foreign hev (.inr (by decide))
  | @queued frame rest hopen =>
    cases h with
    | sending hframes hresult hreturns =>
      refine .sending ?_ hresult ?_
      · rw [queuedBy_snoc, Event.queuedBy, if_pos rfl, ← hframes, List.append_assoc]
        rfl
      · rw [returnsOf_snoc, hreturns]
        rfl
    | ended hrank => exact absurd hrank (rank_sending _)
  | @refused frame rest hclosed =>
    have hreturns : returnsOf c (new ++ [.refused c frame]) = returnsOf c new := by
      rw [returnsOf_snoc]
      exact List.append_nil _
    refine .refused ⟨frame, by simp⟩ (hreturns.trans ?_)
    cases h with
    | sending hframes hresult hreturns => exact hreturns
    | ended hrank => exact absurd hrank (rank_sending _)
  | @returned r ev stage' hev hqueued hrefused hrank =>
    have hframes : queuedBy c (new ++ [ev]) = queuedBy c new := by
      rw [queuedBy_snoc, hqueued]
      exact List.append_nil _
    have hreturns : returnsOf c new = [] → returnsOf c (new ++ [ev]) = [r] := by
      intro hnone
      rw [returnsOf_snoc, hnone, hev]
      rfl
    cases h with
    | sending hall hresult hnone =>
      refine .ended hrank (hreturns hnone) (.inl ⟨?_, hresult⟩)
      rw [hframes, ← hall]
      exact (List.append_nil _).symm
    | refused hrefused hnone => exact .ended hrank (hreturns hnone) (.inr ⟨hrefused.snoc, rfl⟩)
    | ended hrank' => exact absurd hrank' (rank_sending _)

/-- The call goes on from `base`. -/
def Follows (c : Ticket) (all : Sending) (base : List Event) (s : State) : Prop :=
  ∃ new, s.log = base ++ new ∧ Progress c all new (s.calls c)

theorem Follows.event {a : Action} (h : Follows c all base s) (hev : Occurs e s a ev t) :
    Follows c all base t := by
  obtain ⟨new, hlog, hprogress⟩ := h
  refine ⟨new ++ [ev], ?_, hprogress.step (hev.callStep hprogress.begun)⟩
  rw [hev.log, hlog, List.append_assoc]

/-- **A call along a run**, whatever the other threads do. -/
theorem Follows.run {actions : List Action} (h : Follows c all base s)
    (hrun : Runs.run (step e) s actions = some t) : Follows c all base t :=
  run_events h (fun _ _ _ _ _ hs hev => hs.event hev) hrun

theorem Progress.returned (h : Progress c all new stage) {r : Return} (hr : r ∈ returnsOf c new) :
    returnsOf c new = [r] ∧ ((queuedBy c new = all.frames ∧ r = all.result) ∨
      (Refused c new ∧ r = .err (.internalError .disconnected))) := by
  cases h with
  | sending hframes hresult hreturns | refused hrefused hreturns =>
    rw [hreturns] at hr
    cases hr
  | ended hstage hreturns hall =>
    rw [hreturns] at hr
    cases List.mem_singleton.mp hr
    exact ⟨hreturns, hall⟩

theorem Progress.sending_returns (h : Progress c all new stage) {rest : Sending}
    (hstage : stage = .sending rest) : returnsOf c new = [] := by
  cases h with
  | sending hframes hresult hreturns => exact hreturns
  | refused hrefused hreturns => exact hreturns
  | ended hrank => exact absurd (hstage ▸ hrank) (rank_sending rest)

/-! ### The shape of what is sent -/

theorem Occurs.queue {a : Action} (h : Occurs e s a ev t) :
    t.queue = s.queue ++ ev.queuedFrame.toList := by
  cases h with
  | queued => rfl
  | _ => exact (List.append_nil _).symm

theorem queue_run {actions : List Action} (hrun : Runs.run (step e) s actions = some t) :
    t.queue = s.queue ++ queuedFrames (since s t) := by
  suffices ∃ new, t.log = s.log ++ new ∧ t.queue = s.queue ++ queuedFrames new by
    obtain ⟨new, hlog, hqueue⟩ := this
    rw [since_eq hlog, hqueue]
  apply run_events (P := fun u => ∃ new, u.log = s.log ++ new ∧
    u.queue = s.queue ++ queuedFrames new) ⟨[], by simp, by simp [queuedFrames]⟩ _ hrun
  intro u a ev v _ ⟨new, hlog, hqueue⟩ hev
  refine ⟨new ++ [ev], by rw [hev.log, hlog, List.append_assoc], ?_⟩
  rw [hev.queue, hqueue, queuedFrames, queuedFrames, filterMap_snoc, List.append_assoc]

/-- From `s` to `t` the call queued `frames` and returned `rs`, and nothing else changed but
that its guard was released and its future given out. -/
structure QueuesOnly (c : Ticket) (frames : List Frame) (rs : List Return) (s t : State) :
    Prop where
  queue : t.queue = s.queue ++ frames
  responses : t.responses = s.responses
  contexts : t.contexts = s.contexts
  task : t.task = s.task
  others : ∀ d, d ≠ c → t.calls d = s.calls d
  locked : rs = [] → t.lock = s.lock
  returned : rs = [.ok] → t.lock = (s.release c).lock ∧ t.calls c = .live

theorem Occurs.own {a : Action} (ha : a.OwnOf c) (h : Occurs e s a ev t) :
    QueuesOnly c (ev.queuedBy c).toList (ev.returnOf c).toList s t := by
  have hothers : ∀ {stage : Stage} {d : Ticket}, d ≠ c → (s.setCall c stage).calls d = s.calls d :=
    fun hd => (State.setCall_calls s c _ _).trans (if_neg hd)
  cases h with
  | queued | refused =>
    cases ha
    exact ⟨by simp [Event.queuedBy], rfl, rfl, rfl, fun d hd => hothers hd, fun _ => rfl,
      fun h => by cases h⟩
  | returnedOk =>
    cases ha
    refine ⟨(List.append_nil _).symm, rfl, rfl, rfl, fun d hd => hothers hd, ?_, fun _ => ⟨rfl, ?_⟩⟩
    · simp [Event.returnOf]
    · simp
  | returnedErr | panicked | poisoned =>
    cases ha
    refine ⟨(List.append_nil _).symm, rfl, rfl, rfl, fun d hd => hothers hd, ?_, ?_⟩ <;>
      simp [Event.returnOf]
  | _ => exact ha.elim

theorem QueuesOnly.append {frames more : List Frame} {rs : List Return} {u : State}
    (h : QueuesOnly c frames [] s t) (h' : QueuesOnly c more rs t u) :
    QueuesOnly c (frames ++ more) rs s u where
  queue := by rw [h'.queue, h.queue, List.append_assoc]
  responses := h'.responses.trans h.responses
  contexts := h'.contexts.trans h.contexts
  task := h'.task.trans h.task
  others := fun d hd => (h'.others d hd).trans (h.others d hd)
  locked := fun hrs => (h'.locked hrs).trans (h.locked rfl)
  returned := fun hrs => by
    obtain ⟨hlock, hlive⟩ := h'.returned hrs
    refine ⟨hlock.trans ?_, hlive⟩
    rw [State.release_lock, State.release_lock, h.locked rfl]

/-- A step of its own finds the call sending. -/
theorem Occurs.own_sending {a : Action} (ha : a.OwnOf c) (h : Occurs e s a ev t) :
    ∃ rest, s.calls c = .sending rest := by
  cases h with
  | queued hcall | refused hcall | returnedOk hcall | returnedErr hcall | panicked hcall
  | poisoned hcall =>
    cases ha
    exact ⟨_, hcall⟩
  | _ => exact ha.elim

theorem own_run {actions : List Action} (hcall : s.calls c = .sending all)
    (hown : ∀ a ∈ actions, a.OwnOf c) (hrun : Runs.run (step e) s actions = some t) :
    ∃ new, t.log = s.log ++ new ∧ Progress c all new (t.calls c) ∧
      QueuesOnly c (queuedBy c new) (returnsOf c new) s t := by
  have hstart : QueuesOnly c [] [] s s :=
    ⟨(List.append_nil _).symm, rfl, rfl, rfl, fun _ _ => rfl, fun _ => rfl, fun h => by cases h⟩
  apply run_events (P := fun u => ∃ new, u.log = s.log ++ new ∧ Progress c all new (u.calls c) ∧
    QueuesOnly c (queuedBy c new) (returnsOf c new) s u) _ _ hrun
  · exact ⟨[], (List.append_nil _).symm, hcall ▸ .sending rfl rfl rfl, hstart⟩
  · intro u a ev v ha ⟨new, hlog, hprogress, honly⟩ hev
    refine ⟨new ++ [ev], by rw [hev.log, hlog, List.append_assoc],
      hprogress.step (hev.callStep hprogress.begun), ?_⟩
    obtain ⟨rest, hsending⟩ := hev.own_sending (hown a ha)
    have hnone := hprogress.sending_returns hsending
    rw [hnone] at honly
    rw [queuedBy_snoc, returnsOf_snoc, hnone, List.nil_append]
    exact honly.append (hev.own (hown a ha))

theorem mem_returnsOf {r : Return} (h : .returned c r ∈ new) : r ∈ returnsOf c new :=
  List.mem_filterMap.mpr ⟨_, h, if_pos rfl⟩

/-- **The shape of what is sent**, whatever the other threads do between any two frames. In a
run of its own steps alone a call that succeeds changes nothing else. -/
theorem send_shape {m : Bytes} {actions : List Action} (hb : e.bandwidth ≠ 0)
    (hcall : s.calls c = .sending (SharedData.send e.snap e.bandwidth c.uuid m))
    (hrun : Runs.run (step e) s actions = some t) (hok : .returned c .ok ∈ since s t) :
    SendShape e.snap e.bandwidth c.uuid m (queuedBy c (since s t)) ∧
      t.queue = s.queue ++ queuedFrames (since s t) ∧
      ((∀ a ∈ actions, a.OwnOf c) → QueuesOnly c (queuedBy c (since s t)) [.ok] s t) := by
  have hstart : Follows c (SharedData.send e.snap e.bandwidth c.uuid m) s.log s :=
    ⟨[], (List.append_nil _).symm, hcall ▸ .sending rfl rfl rfl⟩
  obtain ⟨new, hlog, hprogress⟩ := hstart.run hrun
  rw [since_eq hlog] at hok ⊢
  obtain ⟨-, ⟨hframes, hresult⟩ | ⟨-, hrefused⟩⟩ := hprogress.returned (mem_returnsOf hok)
  · refine ⟨hframes ▸ send_frames hb hresult.symm, since_eq hlog ▸ queue_run hrun, fun hown => ?_⟩
    obtain ⟨new', hlog', hprogress', honly⟩ := own_run hcall hown hrun
    rw [← since_eq hlog', since_eq hlog] at honly hprogress'
    rwa [(hprogress'.returned (mem_returnsOf hok)).1] at honly
  · cases hrefused

/-- Seventeen bytes are one more than the example's bandwidth. -/
def longMessage : Bytes := List.replicate 17 7

def longSteps : List Action := List.replicate 5 (.push exampleCall) ++ [.ret exampleCall]

theorem send_shape_long : ∃ s t, step exampleClient .init (.send exampleCall (.bytes longMessage)) =
      some s ∧ Runs.run (step exampleClient) s longSteps = some t ∧
    t.queue.map Frame.kind = [.BEGIN, .PROCESS, .PROCESS, .PROCESS, .END] ∧
    SendShape .framed 16 .nil longMessage (queuedBy exampleCall (since s t)) ∧
    QueuesOnly exampleCall (queuedBy exampleCall (since s t)) [.ok] s t := by
  have hview : ((step exampleClient .init (.send exampleCall (.bytes longMessage))).bind fun s =>
      (Runs.run (step exampleClient) s longSteps).map fun t =>
        (s.calls exampleCall, (since s t).getLast?, t.queue.map Frame.kind)) =
      some (.sending (SharedData.send .framed 16 .nil longMessage),
        some (.returned exampleCall .ok), [.BEGIN, .PROCESS, .PROCESS, .PROCESS, .END]) := by
    decide +kernel
  obtain ⟨s, hs, hview⟩ := Option.bind_eq_some_iff.mp hview
  obtain ⟨t, ht, hview⟩ := Option.map_eq_some_iff.mp hview
  obtain ⟨hcall, hview⟩ := Prod.mk.inj hview
  obtain ⟨hlast, hkinds⟩ := Prod.mk.inj hview
  have hown : ∀ a ∈ longSteps, a.OwnOf exampleCall := by
    intro a ha
    rw [longSteps, List.mem_append, List.mem_replicate, List.mem_singleton] at ha
    obtain ⟨-, rfl⟩ | rfl := ha <;> rfl
  obtain ⟨hshape, -, honly⟩ := send_shape (e := exampleClient) (by decide) hcall ht
    (List.mem_of_getLast? hlast)
  exact ⟨s, t, hs, ht, hkinds, hshape, honly hown⟩

end Wsmq
