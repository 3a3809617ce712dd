import Wsmq.Link.Reassembly
import Mathlib.Algebra.BigOperators.Group.Finset.Basic

/-! A link comes to rest.

What a link does by itself is to queue the next frame of a call, let a call return, write a
frame and read one (`Internal`). Each of these lowers `load`, in which a frame weighs most
before it is queued and least once it is written, so a link left alone stops after a bounded
number of steps, in any order. If every frame of what was asked is short enough for the other
end (`Fitting`), it stops nowhere but where all is delivered: while a call sends, or a frame is
unread, some end can go on (`rests`). -/
namespace Wsmq
open Receiver

variable {e : Endpoint} {Allowed : State → Action → Prop} {s t : State}

/-! ### One end -/

theorem Occurs.calls_one {a : Action} {ev : Event} (h : Occurs e s a ev t) :
    ∃ c, ∀ d, d ≠ c → t.calls d = s.calls d := by
  have hset : ∀ (c : Ticket) (stage : Stage) (d : Ticket), d ≠ c →
      (s.setCall c stage).calls d = s.calls d := by
    intro c stage d hd
    rw [State.setCall_calls, if_neg hd]
  cases h with
  | @sent c | @unregistered c | @replied c | @replyFailed c | @queued c | @refused c
  | @returnedOk c | @returnedErr c | @panicked c | @poisoned c => exact ⟨c, hset c _⟩
  | @dropped f | @dropFailed f => exact ⟨f, hset f _⟩
  | _ => exact ⟨⟨.nil, 0⟩, fun _ _ => rfl⟩

/-- Only finitely many calls have begun. -/
theorem History.begun_finite (h : History e Allowed s) :
    ∃ F : Finset Ticket, ∀ c, c ∉ F → s.calls c = .idle := by
  induction h with
  | init => exact ⟨∅, fun _ _ => rfl⟩
  | event hs ha hev ih =>
    obtain ⟨F, hF⟩ := ih
    obtain ⟨c, hc⟩ := hev.calls_one
    refine ⟨insert c F, fun d hd => ?_⟩
    simp only [Finset.mem_insert, not_or] at hd
    rw [hc d hd.1, hF d hd.2]

/-- Who holds the mutex is sending. -/
theorem History.holder_sends (h : History e Allowed s) {c : Ticket} (hlock : s.lock = .held c) :
    ∃ rest, s.calls c = .sending rest := by
  induction h with
  | init => cases hlock
  | @event s t a ev hs ha hev ih =>
    -- A call that goes on is still sending.
    have hother : ∀ {d : Ticket} {stage : Stage}, s.lock = .held c →
        (d = c → ∃ rest, stage = .sending rest) →
        ∃ rest, (s.setCall d stage).calls c = .sending rest := by
      intro d stage hlock hstage
      rw [State.setCall_calls]
      split
      · rename_i hcd
        exact hstage hcd.symm
      · exact ih hlock
    -- A call that returns lets go of it.
    have hreleased : ∀ {d : Ticket} {stage : Stage}, (s.release d).lock = .held c →
        ∃ rest, (s.setCall d stage).calls c = .sending rest := by
      intro d stage hlock
      rw [State.release_lock] at hlock
      split at hlock
      · cases hlock
      · rename_i hd
        exact hother hlock fun hdc => absurd (hdc ▸ hlock) hd
    cases hev with
    | sent hside hidle hfree =>
      exact hother hlock fun _ => ⟨_, rfl⟩
    | replied =>
      cases hlock
      exact ⟨_, (State.setCall_calls ..).trans (if_pos rfl)⟩
    | unregistered hside hidle hpoisoned | replyFailed hresponse hidle hpoisoned =>
      cases hpoisoned.symm.trans hlock
    | queued | refused => exact hother hlock fun _ => ⟨_, rfl⟩
    | returnedOk | returnedErr => exact hreleased hlock
    | panicked hcall hnot => exact hother hlock fun hdc => absurd (hdc ▸ hlock) hnot
    | poisoned => cases hlock
    | dropped hlive hfree => cases hfree.symm.trans hlock
    | dropFailed hlive hpoisoned => cases hpoisoned.symm.trans hlock
    | _ => exact ih hlock

/-- While the queue's receiver is there, the queue refuses nothing. -/
theorem History.unrefused (h : History e Allowed s) (hopen : s.task ≠ .ended) (c : Ticket) :
    ¬ Refused c s.log := by
  induction h with
  | init =>
    rintro ⟨frame, hmem⟩
    cases hmem
  | @event s t a ev hs ha hev ih =>
    have hbefore : s.task ≠ .ended := by
      intro hended
      apply hopen
      cases hev with
      | received htask | selected htask | clearWoke _ htask | clearEmptied htask
      | aborted _ htask => cases hended.symm.trans htask
      | canceled _ _ hserving => exact absurd hended hserving
      | clearWakePanicked | clearEmptyPanicked | receiverDropped => rfl
      | _ => exact hended
    rintro ⟨frame, hmem⟩
    rw [hev.log] at hmem
    rcases List.mem_append.mp hmem with hmem | hmem
    · exact ih hbefore ⟨frame, hmem⟩
    · cases List.mem_singleton.mp hmem
      cases hev with
      | refused hcall hclosed => exact hbefore hclosed

/-- A call that sends can go on. -/
theorem sending_goes_on {c : Ticket} {rest : Sending} (hcall : s.calls c = .sending rest) :
    (∃ t, step e s (.push c) = some t) ∨ ∃ t, step e s (.ret c) = some t := by
  cases rest with
  | queue frame rest =>
    by_cases htask : s.task = .ended
    · exact .inl ⟨_, occurs_step (.refused hcall htask) id⟩
    · exact .inl ⟨_, occurs_step (.queued hcall htask) id⟩
  | done r =>
    cases r with
    | ok => exact .inr ⟨_, occurs_step (.returnedOk hcall) id⟩
    | err err => exact .inr ⟨_, occurs_step (.returnedErr hcall) id⟩
    | panicked =>
      by_cases hlock : s.lock = .held c
      · exact .inr ⟨_, occurs_step (.poisoned hcall hlock) id⟩
      · exact .inr ⟨_, occurs_step (.panicked hcall hlock) id⟩

theorem handles_total {callbacks : List Callback} (hlock : ∀ c, s.lock ≠ .held c) :
    ∃ t, callbacks.foldlM (handle e) s = some t := by
  induction callbacks generalizing s with
  | nil => exact ⟨s, rfl⟩
  | cons callback rest ih =>
    have hfirst : ∃ u, handle e s callback = some u := by
      cases callback with
      | onMessage u x =>
        simp only [handle]
        split
        · exact ⟨_, rfl⟩
        · split
          · exact absurd ‹_› (hlock _)
          · exact ⟨_, rfl⟩
          · exact ⟨_, rfl⟩
      | onCallback pctx | onError err => exact ⟨_, rfl⟩
      | onCanceled pctx =>
        simp only [handle]
        split <;> exact ⟨_, rfl⟩
    obtain ⟨u, hu⟩ := hfirst
    obtain ⟨t, ht⟩ := ih (s := u) fun c => by rw [(handle_frame hu).1]; exact hlock c
    refine ⟨t, ?_⟩
    rw [List.foldlM_cons, hu]
    exact ht

/-- While nobody holds the mutex, a task in its loop can handle what comes. -/
theorem receive_total (htask : s.task = .running) (hlock : ∀ c, s.lock ≠ .held c) (m : WsMessage)
    (cancels : ProgressContext → Bool) : ∃ t, step e s (.receive m cancels) = some t := by
  rw [step, if_pos htask]
  exact handles_total hlock

/-- Callbacks that cancel nothing let the task go on. -/
theorem uncanceled (P : Protobuf) (S : Snap) (contexts : Contexts) (data : Bytes)
    (pctx : ProgressContext) :
    .onCanceled pctx ∉ (messageDispatch P S (fun _ => false) contexts data).2 := by
  have hprogress : ∀ method uuid totalLength current,
      .onCanceled pctx ∉ progress (fun _ => false) (.new method uuid totalLength current) := by
    intro method uuid totalLength current hmem
    obtain heq | ⟨hcanceled, -⟩ := mem_progress.mp hmem
    · cases heq
    · cases hcanceled
  rw [dispatch_eq]
  split
  · intro hmem
    obtain heq | heq := mem_malformed hmem <;> cases heq
  · rename_i uuid frame _
    dsimp only
    cases frame with
    | oneshot m => simp [MessageContext.callbacks]
    | begin m => exact hprogress _ _ _ _
    | process m =>
      dsimp only [MessageContext.callbacks]
      split
      · exact List.not_mem_nil
      · exact hprogress _ _ _ _
    | «end» m =>
      dsimp only [MessageContext.callbacks]
      split
      · exact List.not_mem_nil
      · split
        · split <;> simp
        · exact List.not_mem_nil

theorem handle_task {callback : Callback} (hcallback : ∀ pctx, callback ≠ .onCanceled pctx)
    (h : handle e s callback = some t) : t.task = s.task := by
  cases callback with
  | onMessage u x =>
    simp only [handle] at h
    split at h
    · cases h
      rfl
    · split at h <;> cases h <;> rfl
  | onCallback pctx | onError err =>
    cases h
    rfl
  | onCanceled pctx => exact absurd rfl (hcallback pctx)

/-- What a received message leaves alone, when nothing is canceled. -/
theorem receive_running {m : WsMessage} (h : step e s (.receive m fun _ => false) = some t) :
    t.task = s.task ∧ t.queue = s.queue ∧ t.calls = s.calls := by
  simp only [step] at h
  split at h
  · rw [← Runs.run_eq_foldlM] at h
    refine Runs.run_invariant (P := fun u => u.task = s.task ∧ u.queue = s.queue ∧
      u.calls = s.calls) ⟨rfl, rfl, rfl⟩ (fun u callback v hmem hu hv => ?_) h
    obtain ⟨-, hqueue, hcalls, -⟩ := handle_frame hv
    refine ⟨?_, hqueue.trans hu.2.1, hcalls.trans hu.2.2⟩
    rw [handle_task (fun pctx heq => uncanceled _ _ _ _ pctx (heq ▸ hmem)) hv, hu.1]
  · cases h

/-- A call that has begun and is not sending has returned. -/
theorem Progress.finished {c : Ticket} {all : Sending} {log : List Event} {stage : Stage}
    (h : Progress c all log stage) (hstage : ∀ rest, stage ≠ .sending rest) :
    (queuedBy c log = all.frames ∧ returnsOf c log = [all.result]) ∨
      (Refused c log ∧ returnsOf c log = [.err (.internalError .disconnected)]) := by
  cases h with
  | sending | refused => exact absurd rfl (hstage _)
  | ended hrank hreturns hall =>
    obtain ⟨hqueued, rfl⟩ | ⟨hrefused, rfl⟩ := hall
    · exact .inl ⟨hqueued, hreturns⟩
    · exact .inr ⟨hrefused, hreturns⟩

/-! ### The load -/

/-- What a call still has to do. A frame it queues has to be written and read after that. -/
def Stage.weight : Stage → Nat
  | .sending rest => 3 * rest.frames.length + 1
  | _ => 0

/-- A step that a link takes by itself, with callbacks that do not cancel. -/
inductive LinkAction.Internal : LinkAction → Prop where
  | push (side : Side) (c : Ticket) : Internal (.act side (.push c))
  | ret (side : Side) (c : Ticket) : Internal (.act side (.ret c))
  | forward (side : Side) : Internal (.forward side)
  | receive (side : Side) : Internal (.receive side fun _ => false)

namespace Link
variable {l : Link} {s t : LinkState} {F : Finset Ticket}

/-- What the calls of an end in `F` and its frames have before them. -/
def load (F : Finset Ticket) (s : LinkState) (side : Side) : Nat :=
  ∑ c ∈ F, ((s.ends side).calls c).weight +
    2 * ((s.ends side).queue.length - s.written side) + (s.written side - s.read side.peer)

def loads (F : Finset Ticket) (s : LinkState) : Nat := load F s .client + load F s .server

theorem loads_lt (side : Side) (h : load F t side < load F s side)
    (hpeer : load F t side.peer = load F s side.peer) : loads F t < loads F s := by
  cases side with
  | client => exact Nat.add_lt_add_of_lt_of_le h hpeer.le
  | server => exact Nat.add_lt_add_of_le_of_lt hpeer.le h

/-- One call goes on. -/
theorem sum_weight {calls calls' : Ticket → Stage} {c : Ticket} (hc : c ∈ F)
    (hcalls : ∀ d, d ≠ c → calls' d = calls d) :
    ∑ d ∈ F, (calls' d).weight + (calls c).weight =
      ∑ d ∈ F, (calls d).weight + (calls' c).weight := by
  have hothers : ∑ d ∈ F.erase c, (calls' d).weight = ∑ d ∈ F.erase c, (calls d).weight :=
    Finset.sum_congr rfl fun d hd => by rw [hcalls d (Finset.ne_of_mem_erase hd)]
  rw [← Finset.add_sum_erase F _ hc, ← Finset.add_sum_erase F (fun d => (calls d).weight) hc,
    hothers]
  omega

/-- Every frame of what was asked of an end is one that the other end reads. -/
def Fitting (l : Link) (s : LinkState) : Prop :=
  ∀ side c request, s.asked side c = some request →
    ∀ frame ∈ (request.sending l.snap (l.bandwidth side) c.uuid).frames, l.protobuf.Fits frame

/-- With the default bandwidth the requests are those that leave room for the envelope. -/
theorem fitting_iff (hbandwidth : ∀ side, l.bandwidth side = defaultBandwidth)
    (hprotobuf : l.protobuf = .generated) : Fitting l s ↔
      ∀ side c request, s.asked side c = some request → LeavesRoom l.snap request := by
  simp only [Fitting, hbandwidth, hprotobuf]
  exact forall_congr' fun _ => forall_congr' fun c => forall_congr' fun request =>
    imp_congr_right fun _ => request.fits_iff l.snap c.uuid

theorem asks_some {a : Action} {asked : Ticket → Option Request} {c : Ticket} {request : Request}
    (h : a.asks asked c = some request) :
    asked c = some request ∨ a = .send c request ∨ a = .reply c request := by
  cases a with
  | send d r | reply d r =>
    rw [Action.asks, Function.update_apply] at h
    split at h
    · cases h
      simp [*]
    · exact .inl h
  | _ => exact .inl h

/-- What was asked for was asked for in the run. -/
theorem asked_of_run {actions : List LinkAction} (hrun : Runs.run l.step .init actions = some s)
    {side : Side} {c : Ticket} {request : Request} (hasked : s.asked side c = some request) :
    .act side (.send c request) ∈ actions ∨ .act side (.reply c request) ∈ actions := by
  revert side c request
  refine Runs.run_invariant (P := fun s : LinkState => ∀ {side c request},
    s.asked side c = some request → .act side (.send c request) ∈ actions ∨
      .act side (.reply c request) ∈ actions) (fun h => by cases h)
    (fun s a t hmem ih hstep side c request hasked => ?_) hrun
  cases step_moves hstep with
  | @act side' b u hb hend =>
    dsimp only at hasked
    by_cases hside : side = side'
    · subst hside
      rw [Function.update_self] at hasked
      obtain hbefore | rfl | rfl := asks_some hasked
      · exact ih hbefore
      · exact .inl hmem
      · exact .inr hmem
    · rw [Function.update_of_ne hside] at hasked
      exact ih hasked
  | forward => exact ih hasked
  | receive => exact ih hasked

/-- Both tasks are in their loops, no call but those in `F` has begun, and no frame is too long. -/
structure Going (l : Link) (F : Finset Ticket) (s : LinkState) : Prop where
  reachable : l.Reachable s
  running : ∀ side, (s.ends side).task = .running
  begun : ∀ side c, c ∉ F → (s.ends side).calls c = .idle
  fitting : Fitting l s

theorem Reachable.going (h : l.Reachable s) (hrunning : ∀ side, (s.ends side).task = .running)
    (hfitting : Fitting l s) : ∃ F, Going l F s := by
  obtain ⟨F, hF⟩ := (h.end_history .client).begun_finite
  obtain ⟨G, hG⟩ := (h.end_history .server).begun_finite
  refine ⟨F ∪ G, h, hrunning, fun side c hc => ?_, hfitting⟩
  rw [Finset.mem_union, not_or] at hc
  cases side with
  | client => exact hF c hc.1
  | server => exact hG c hc.2

/-- A call that goes on, with what it queues, weighs less. -/
theorem loads_call {side : Side} {c : Ticket} {u : State} {asked : Side → Ticket → Option Request}
    (hc : c ∈ F) (hcalls : ∀ d, d ≠ c → u.calls d = (s.ends side).calls d)
    (hless : (u.calls c).weight + 2 * u.queue.length <
      ((s.ends side).calls c).weight + 2 * (s.ends side).queue.length)
    (hwritten : s.written side ≤ (s.ends side).queue.length)
    (hqueue : (s.ends side).queue.length ≤ u.queue.length) :
    loads F {s with ends := Function.update s.ends side u, asked := asked} < loads F s := by
  apply loads_lt side
  · have hsum := sum_weight hc hcalls
    simp only [load, Function.update_self]
    omega
  · simp only [load, Function.update_of_ne (peer_ne side)]

theorem loads_forward {side : Side} (hs : InOrder s)
    (hmore : s.written side < (s.ends side).queue.length) :
    loads F {s with written := Function.update s.written side (s.written side + 1)} < loads F s := by
  apply loads_lt side
  · have hread := hs.read_le side.peer
    rw [peer_peer] at hread
    simp only [load, Function.update_self]
    omega
  · simp only [load, Function.update_of_ne (peer_ne side)]

theorem loads_receive {side : Side} {u : State} (hwritten : s.read side < s.written side.peer)
    (hqueue : u.queue = (s.ends side).queue) (hcalls : u.calls = (s.ends side).calls) :
    loads F {s with
      ends := Function.update s.ends side u
      read := Function.update s.read side (s.read side + 1)} < loads F s := by
  apply loads_lt side.peer
  · simp only [load, peer_peer, Function.update_self, Function.update_of_ne (peer_ne side)]
    omega
  · simp only [load, peer_peer, Function.update_self, Function.update_of_ne (peer_ne side), hqueue,
      hcalls]

/-- Nothing new is asked for. -/
theorem Moves.asked_eq {a : LinkAction} (h : Moves l s a t) (ha : a.Internal) :
    t.asked = s.asked := by
  cases ha <;> cases h <;> first | rfl | exact Function.update_eq_self _ _

theorem Fitting.congr (h : Fitting l s) (hasked : t.asked = s.asked) : Fitting l t := by
  intro side c request hrequest
  rw [hasked] at hrequest
  exact h side c request hrequest

/-- An end stays in its loop and begins no call. -/
theorem Going.congr (h : Going l F s) (ht : l.Reachable t) (hasked : t.asked = s.asked)
    {side : Side} {u : State} (hends : t.ends = Function.update s.ends side u)
    (htask : u.task = (s.ends side).task)
    (hcalls : ∀ c, c ∉ F → u.calls c = (s.ends side).calls c) : Going l F t := by
  refine ⟨ht, fun side' => ?_, fun side' c hc => ?_, h.fitting.congr hasked⟩ <;>
    rw [hends, Function.update_apply]
  · split
    · rw [htask, h.running]
    · exact h.running side'
  · split
    · rw [hcalls c hc, h.begun side c hc]
    · exact h.begun side' c hc

/-- **A step the link takes by itself lowers its load.** -/
theorem Going.step (h : Going l F s) {a : LinkAction} (ha : a.Internal)
    (hstep : l.step s a = some t) : Going l F t ∧ loads F t < loads F s := by
  have horder := h.reachable.inOrder
  have hreach : l.Reachable t := h.reachable.step (by cases ha <;> trivial) hstep
  have hmoves := step_moves hstep
  have hasked := hmoves.asked_eq ha
  have hbegun : ∀ {side : Side} {c : Ticket} {rest : Sending},
      (s.ends side).calls c = .sending rest → c ∈ F := by
    intro side c rest hcall
    by_contra hc
    cases (h.begun side c hc).symm.trans hcall
  have hne : ∀ {side : Side} {c d : Ticket} {rest : Sending}, d ∉ F →
      (s.ends side).calls c = .sending rest → d ≠ c :=
    fun hd hcall hdc => hd (hdc ▸ hbegun hcall)
  cases ha with
  | push side c =>
    cases hmoves with
    | @act _ _ u ha hend =>
      obtain ⟨ev, hev⟩ := step_event hend ha
      cases hev with
      | @queued _ frame rest hcall hopen =>
        have hcalls : ∀ d, d ≠ c → ((s.ends side).setCall c (.sending rest)).calls d =
            (s.ends side).calls d := fun d hd => (State.setCall_calls ..).trans (if_neg hd)
        refine ⟨h.congr hreach hasked rfl rfl fun d hd => hcalls d (hne hd hcall), ?_⟩
        refine loads_call (hbegun hcall) hcalls ?_ (horder.written_le side) (by simp)
        simp only [State.record_calls, State.setCall_calls, if_pos, hcall, Stage.weight,
          Sending.frames, List.length_cons, State.record_queue, List.length_append,
          List.length_nil]
        omega
      | refused hcall hclosed => cases (h.running side).symm.trans hclosed
  | ret side c =>
    cases hmoves with
    | @act _ _ u ha hend =>
      obtain ⟨ev, hev⟩ := step_event hend ha
      have hcalls : ∀ stage d, d ≠ c → ((s.ends side).setCall c stage).calls d =
          (s.ends side).calls d := fun stage d hd => (State.setCall_calls ..).trans (if_neg hd)
      cases hev with
      | returnedOk hcall | returnedErr hcall | panicked hcall | poisoned hcall =>
        refine ⟨h.congr hreach hasked rfl rfl fun d hd => hcalls _ d (hne hd hcall), ?_⟩
        refine loads_call (hbegun hcall) (hcalls _) ?_ (horder.written_le side) (Nat.le_refl _)
        simp [hcall, Stage.weight]
  | forward side =>
    cases hmoves with
    | forward htask hmore =>
      exact ⟨⟨hreach, h.running, h.begun, h.fitting.congr hasked⟩, loads_forward horder hmore⟩
  | receive side =>
    cases hmoves with
    | receive hwritten hframe hfits hend =>
      obtain ⟨htask, hqueue, hcalls⟩ := receive_running hend
      refine ⟨h.congr hreach hasked rfl htask fun c _ => congrFun hcalls c, ?_⟩
      exact loads_receive hwritten hqueue hcalls

/-! ### At rest -/

/-- What was asked of one end has come to the other, and nothing is under way to it. -/
structure Settled (s : LinkState) (side : Side) : Prop where
  returned : ∀ c rest, (s.ends side.peer).calls c ≠ .sending rest
  arrived : ∀ c request x, s.asked side.peer c = some request → request.payload = some x →
    (c.uuid, x) ∈ messages (s.ends side).log
  in_order : messages (s.ends side).log =
    (posts (s.asked side.peer) (s.ends side.peer).log).map spoken
  contexts : (s.ends side).contexts = ∅

/-- **A link stops only at rest.** -/
theorem Going.settled (hl : l.Proper) (h : Going l F s)
    (hstuck : ∀ a : LinkAction, a.Internal → l.step s a = none) (side : Side) : Settled s side := by
  have horder := h.reachable.inOrder
  have hhistory := h.reachable.end_history
  have hcalls : ∀ side c rest, (s.ends side).calls c ≠ .sending rest := by
    intro side c rest hcall
    obtain ⟨u, hu⟩ | ⟨u, hu⟩ := sending_goes_on (e := l.endpoint side) hcall
    · cases (moves_step (.act id hu)).symm.trans (hstuck _ (.push side c))
    · cases (moves_step (.act id hu)).symm.trans (hstuck _ (.ret side c))
  have hwritten : s.written side.peer = (s.ends side.peer).queue.length := by
    refine Nat.le_antisymm (horder.written_le _) (Nat.not_lt.mp fun hmore => ?_)
    cases (moves_step (.forward (h.running _) hmore)).symm.trans (hstuck _ (.forward side.peer))
  have hread : s.read side = (s.ends side.peer).queue.length := by
    refine hwritten ▸ Nat.le_antisymm (horder.read_le side) (Nat.not_lt.mp fun hmore => ?_)
    have hlock : ∀ c, (s.ends side).lock ≠ .held c := by
      intro c hheld
      obtain ⟨rest, hrest⟩ := (hhistory side).holder_sends hheld
      exact hcalls side c rest hrest
    have hframe := List.getElem?_eq_getElem (hwritten ▸ hmore)
    obtain ⟨v, -, past, rest, ⟨c, request, x, rfl, hasked, -, -, hframes⟩, -⟩ :=
      (h.reachable.speaks hl side.peer).spoken.continued _ _ hframe
    have hfits := h.fitting side.peer c request hasked _
      (hframes ▸ List.mem_append_right past List.mem_cons_self)
    obtain ⟨u, hu⟩ := receive_total (e := l.endpoint side) (h.running side) hlock
      (.binary (l.protobuf.writeToBytes (s.ends side.peer).queue[s.read side])) fun _ => false
    cases (moves_step (.receive hmore hframe hfits hu)).symm.trans (hstuck _ (.receive side))
  have hopen : (s.ends side.peer).task ≠ .ended := by
    rw [h.running]
    decide
  have hmessages := (delivered_exactly_once hl h.reachable side).caught_up hread
  refine ⟨hcalls side.peer, fun c request x hasked hx => ?_, hmessages,
    (contexts_reassemble hl h.reachable side).2 hread hopen (hcalls side.peer)⟩
  obtain ⟨hspoken, htold⟩ := h.reachable.speaks hl side.peer
  obtain ⟨request', hrequest', hprogress⟩ := htold c (hspoken.asked_begun c request hasked)
  cases hasked.symm.trans hrequest'
  obtain ⟨fs, hfs, heq⟩ := request_carries c.uuid hl.snap (hl.bandwidth side.peer) hx
  have hframes : (request.sending l.snap (l.bandwidth side.peer) c.uuid).frames = fs := by
    rw [heq, Sending.frames_queueAll]
    exact List.append_nil _
  -- The call has returned, and nothing of it was refused.
  have hqueued : queuedBy c (s.ends side.peer).log = fs := by
    rw [← hframes]
    obtain hreturned | ⟨hrefused, -⟩ := hprogress.progress.finished (hcalls side.peer c)
    · exact hreturned.1
    · exact absurd hrefused ((hhistory side.peer).unrefused hopen c)
  have hpost : (c, x) ∈ postsOf (s.asked side.peer) c (s.ends side.peer).log := by
    rw [← hqueued, ← List.append_nil (queuedBy c _)] at hfs
    rw [postsOf_queued hrequest' hx hfs, if_pos rfl]
    exact List.mem_singleton_self _
  rw [hmessages]
  exact List.mem_map.mpr ⟨_, List.mem_of_mem_filter hpost, rfl⟩

/-- **A link left alone comes to rest**, in any order of its steps: no run of them is longer
than some bound, and where one ends everything asked has arrived, at both ends. -/
theorem rests (hl : l.Proper) (h : l.Reachable s) (hrunning : ∀ side, (s.ends side).task = .running)
    (hfitting : Fitting l s) :
    (∃ bound, ∀ actions t, (∀ a ∈ actions, LinkAction.Internal a) →
      Runs.run l.step s actions = some t → actions.length ≤ bound) ∧
    (∃ actions t, (∀ a ∈ actions, LinkAction.Internal a) ∧ Runs.run l.step s actions = some t ∧
      ∀ a : LinkAction, a.Internal → l.step t a = none) ∧
    ∀ actions t, (∀ a ∈ actions, LinkAction.Internal a) → Runs.run l.step s actions = some t →
      (∀ a : LinkAction, a.Internal → l.step t a = none) → ∀ side, Settled t side := by
  obtain ⟨F, hgoing⟩ := h.going hrunning hfitting
  have hstep : ∀ s a t, Going l F s → LinkAction.Internal a → l.step s a = some t →
      Going l F t ∧ loads F t < loads F s := fun s a t hs ha hstep => hs.step ha hstep
  refine ⟨⟨loads F s, fun actions t hall hrun => ?_⟩, ?_, fun actions t hall hrun hstuck => ?_⟩
  · obtain ⟨-, hle⟩ := Runs.run_length_le hstep hgoing hall hrun
    exact (Nat.le_add_right _ _).trans hle
  · obtain ⟨actions, t, hall, hrun, -, hstuck⟩ := Runs.run_stuck hstep hgoing
    exact ⟨actions, t, hall, hrun, hstuck⟩
  · obtain ⟨hend, -⟩ := Runs.run_length_le hstep hgoing hall hrun
    exact hend.settled hl hstuck

/-- What is asked for in the exchange fits. -/
theorem exchange_fits {β : Type} (n : Nat) (view : LinkState → β) {b : β}
    (h : (Runs.run exampleLink.step .init (exchange.take n)).map view = some b) :
    ∃ s, exampleLink.Reachable s ∧ Fitting exampleLink s ∧ view s = b := by
  obtain ⟨s, hrun, hview⟩ := Option.map_eq_some_iff.mp h
  refine ⟨s, Runs.Reachable.init.along (exchange_along n) hrun, fun side c request hasked => ?_,
    hview⟩
  have hmem : .act side (.send c request) ∈ exchange ∨ .act side (.reply c request) ∈ exchange :=
    (asked_of_run hrun hasked).imp List.mem_of_mem_take List.mem_of_mem_take
  simp only [exchange, List.mem_append, List.mem_replicate, List.mem_cons, List.not_mem_nil,
    LinkAction.act.injEq, reduceCtorEq, Action.send.injEq, Action.reply.injEq, and_false,
    or_false, false_or] at hmem
  obtain ⟨rfl, rfl, rfl⟩ | ⟨rfl, rfl, rfl⟩ := hmem <;> decide +kernel

/-- From the first step of the exchange on. -/
theorem rests_exchange : ∃ s, exampleLink.Reachable s ∧
    s.asked .client exampleCall = some (.bytes longMessage) ∧
    ∃ actions t, (∀ a ∈ actions, LinkAction.Internal a) ∧
      Runs.run exampleLink.step s actions = some t ∧ ∀ side, Settled t side := by
  obtain ⟨s, hs, hfitting, hview⟩ := exchange_fits 1
    (fun s => (s.asked .client exampleCall, (s.ends .client).task, (s.ends .server).task))
    (b := (some (.bytes longMessage), .running, .running)) (by decide +kernel)
  obtain ⟨hasked, htasks⟩ := Prod.mk.inj hview
  obtain ⟨hclient, hserver⟩ := Prod.mk.inj htasks
  have hrunning : ∀ side, (s.ends side).task = .running := by
    intro side
    cases side with
    | client => exact hclient
    | server => exact hserver
  obtain ⟨-, ⟨actions, t, hall, hrun, hstuck⟩, hend⟩ :=
    rests exampleLink_proper hs hrunning hfitting
  exact ⟨s, hs, hasked, actions, t, hall, hrun, hend actions t hall hrun hstuck⟩

end Link
end Wsmq
