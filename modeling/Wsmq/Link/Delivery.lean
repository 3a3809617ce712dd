import Wsmq.Link
import Wsmq.Connection.Control
import Wsmq.Library.Channel

/-! What is sent over a link arrives.

The two ends run in any interleaving, each with any number of calls that queue their frames
side by side. Still the link is a channel of whole messages in each direction: a message is
posted when the last frame of its transfer is queued, and taken when that frame is read
(`follows_channel`). So what an end hands to `on_message` is, in order, a beginning of what
the calls of the other end posted, each call at most one message, its own
(`delivered_exactly_once`). -/
namespace Wsmq
open Receiver

/-- The message that the event hands to `on_message`. -/
def Event.message : Event → Option (Uuid × Bytes)
  | .delivered u x _ => some (u, x)
  | _ => none

def messages (log : List Event) : List (Uuid × Bytes) := log.filterMap Event.message

variable {e : Endpoint} {s t : State}

theorem messages_append (a b : List Event) : messages (a ++ b) = messages a ++ messages b :=
  List.filterMap_append

/-! ### A received message -/

theorem Event.message_callback {ev : Event} {callback : Callback}
    (h : ev.callback = some callback) : messages [ev] = deliveries [callback] := by
  cases ev <;> cases h <;> rfl

theorem handle_messages {callback : Callback} (h : handle e s callback = some t) :
    messages t.log = messages s.log ++ deliveries [callback] := by
  by_cases hcanceled : ∃ pctx, callback = .onCanceled pctx
  · obtain ⟨pctx, rfl⟩ := hcanceled
    obtain ⟨⟨evs, hlog, hevs⟩, -⟩ := handle_events h
    rw [hlog, messages_append]
    congr 1
    refine List.filterMap_eq_nil_iff.mpr fun ev hmem => ?_
    have hcallback := hevs ev hmem
    cases ev <;> first | rfl | cases hcallback
  · obtain ⟨ev, hlog, hcallback⟩ := handle_recorded (fun pctx h => hcanceled ⟨pctx, h⟩) h
    rw [hlog, messages_append, ev.message_callback hcallback]

theorem handles_messages {callbacks : List Callback}
    (h : callbacks.foldlM (handle e) s = some t) :
    messages t.log = messages s.log ++ deliveries callbacks := by
  induction callbacks generalizing s with
  | nil =>
    cases h
    exact (List.append_nil _).symm
  | cons callback rest ih =>
    rw [List.foldlM_cons] at h
    obtain ⟨between, hfirst, hrest⟩ := Option.bind_eq_some_iff.mp h
    rw [ih hrest, handle_messages hfirst, List.append_assoc, ← deliveries_append]
    rfl

/-- What a received message leaves. -/
structure Received (s t : State) (dispatched : Contexts × List Callback) : Prop where
  contexts : t.contexts = dispatched.1
  messages : messages t.log = messages s.log ++ deliveries dispatched.2
  recorded : ∃ data evs, t.log = s.log ++ .received data :: evs ∧
    ∀ ev ∈ evs, ∃ callback ∈ dispatched.2, ev.callback = some callback

theorem receive_received {m : WsMessage} {cancels : ProgressContext → Bool}
    (h : Wsmq.step e s (.receive m cancels) = some t) :
    Received s t (messageDispatch e.protobuf e.snap cancels s.contexts m.intoData) := by
  obtain ⟨-, ⟨evs, hlog, hevs⟩, -⟩ := receive_events h
  simp only [step] at h
  split at h
  · refine ⟨handles_contexts h, ?_, m.intoData, evs, hlog, hevs⟩
    rw [handles_messages h, State.record_log, messages_append]
    congr 1
    exact List.append_nil _
  · cases h

/-- Everything else neither delivers nor touches the contexts. -/
theorem Occurs.unheard {a : Action} {ev : Event} (h : Occurs e s a ev t) (ha : ¬ a.isReceive) :
    t.contexts = s.contexts ∧ messages t.log = messages s.log ∧ ev.callback = none := by
  have hquiet := (h.quiet ha).1
  refine ⟨?_, ?_, hquiet⟩
  · cases h with
    | received | progressed | errored | canceled | handed | delivered | deliverFailed =>
      exact absurd trivial ha
    | _ => rfl
  · rw [h.log, messages_append]
    have hnone : messages [ev] = [] := by cases ev <;> first | rfl | cases hquiet
    rw [hnone, List.append_nil]

/-! ### Both ends -/

namespace Link

/-- What the link relies on: of the packages, and a bandwidth at each end. -/
structure Proper (l : Link) : Prop where
  protobuf : l.protobuf.Inverts
  snap : l.snap.Inverts
  bandwidth : ∀ side, l.bandwidth side ≠ 0

variable {l : Link} {s t : LinkState}

/-- The state of an end and what its calls were asked, together. -/
structure Speaks (l : Link) (s : LinkState) (side : Side) : Prop where
  spoken : Spoken (l.endpoint side) (s.asked side) (s.ends side)
  told : AllTold (l.endpoint side) (s.asked side) (s.ends side)

theorem speaks_step (hl : l.Proper) {side : Side} {asked : Ticket → Option Request} {s t : State}
    {a : Action} (hs : History (l.endpoint side) FreshUuid s)
    (hspoken : Spoken (l.endpoint side) asked s) (htold : AllTold (l.endpoint side) asked s)
    (ha : FreshUuid s a ∨ a.isReceive) (hstep : Wsmq.step (l.endpoint side) s a = some t) :
    Spoken (l.endpoint side) (a.asks asked) t ∧ AllTold (l.endpoint side) (a.asks asked) t := by
  have hb : (l.endpoint side).bandwidth ≠ 0 := hl.bandwidth side
  have hevent : ∀ {u v : State} {ev : Event}, History (l.endpoint side) FreshUuid u →
      Spoken (l.endpoint side) asked u → AllTold (l.endpoint side) asked u →
      FreshUuid u a ∨ a.isReceive → Occurs (l.endpoint side) u a ev v →
      Spoken (l.endpoint side) (a.asks asked) v ∧ AllTold (l.endpoint side) (a.asks asked) v :=
    fun hu hspoken htold ha hev => ⟨hspoken.event hl.protobuf hl.snap hb hu ha hev,
      htold.event hu (hu.unpanicked hb).1 hev⟩
  obtain ⟨ev, hev⟩ | ⟨hreceive, hoccur⟩ := step_occurs hstep
  · exact hevent hs hspoken htold ha hev
  · -- A received message asks for nothing, whatever it records.
    have hasks : a.asks asked = asked := by
      cases a with
      | receive => rfl
      | _ => exact hreceive.elim
    rw [hasks]
    clear hstep
    induction hoccur with
    | refl s => exact ⟨hspoken, htold⟩
    | event hev rest ih =>
      obtain ⟨hspoken', htold'⟩ := hevent hs hspoken htold (.inr hreceive) hev
      rw [hasks] at hspoken' htold'
      exact ih (.event hs (.inr hreceive) hev) hspoken' htold' (.inr hreceive)

theorem Reachable.speaks (hl : l.Proper) (h : l.Reachable s) (side : Side) : Speaks l s side := by
  apply h.invariant
  · refine ⟨?_, fun c hc => absurd rfl hc⟩
    refine ⟨rfl, fun k frame hframe => ?_, fun k u context hcontext => ?_, fun c r hc => ?_,
      fun _ c rest hc => ?_, fun _ u _ => ?_⟩
    · simp [LinkState.init, State.init] at hframe
    · have hnone : (heard (l.endpoint side).protobuf (l.endpoint side).snap
          ((LinkState.init.ends side).queue.take k)).1.lookup u = none := by
        simp [LinkState.init, State.init, heard, feed]
      cases hnone.symm.trans hcontext
    · cases hc
    · cases hc
    · simp [LinkState.init, State.init, heard, feed]
  · intro s a t hreach ih ha hstep
    have hends := Reachable.end_history hreach
    cases step_moves hstep with
    | @act side' b u hb hend =>
      by_cases hside : side = side'
      · subst hside
        obtain ⟨hspoken, htold⟩ := speaks_step hl (hends side) ih.spoken ih.told (.inl ha) hend
        constructor <;> dsimp only <;> rw [Function.update_self, Function.update_self]
        · exact hspoken
        · exact htold
      · constructor <;> dsimp only <;> rw [Function.update_of_ne hside, Function.update_of_ne hside]
        · exact ih.spoken
        · exact ih.told
    | forward => exact ⟨ih.spoken, ih.told⟩
    | @receive side' cancels frame u hwritten hframe hfits hend =>
      by_cases hside : side = side'
      · subst hside
        obtain ⟨hspoken, htold⟩ :=
          speaks_step (a := .receive (.binary (l.protobuf.writeToBytes frame)) cancels) hl
            (hends side) ih.spoken ih.told (.inr trivial) hend
        constructor <;> dsimp only <;> rw [Function.update_self]
        · exact hspoken
        · exact htold
      · constructor <;> dsimp only <;> rw [Function.update_of_ne hside]
        · exact ih.spoken
        · exact ih.told

/-- The frames an end has read. -/
def received (s : LinkState) (side : Side) : List Frame :=
  (s.ends side.peer).queue.take (s.read side)

/-- An end is where the frames it has read leave a receiver, and has reported no error. -/
structure Hears (l : Link) (s : LinkState) (side : Side) : Prop where
  contexts : (s.ends side).contexts = (heard l.protobuf l.snap (received s side)).1
  messages : messages (s.ends side).log =
    deliveries (heard l.protobuf l.snap (received s side)).2.flatten
  sound : ∀ err, .errored err ∉ (s.ends side).log

theorem peer_ne (side : Side) : side.peer ≠ side := by cases side <;> decide

theorem peer_peer (side : Side) : side.peer.peer = side := by cases side <;> rfl

/-- What is in the queue stays where it is. -/
theorem received_of_grown (hs : InOrder s) {side : Side} {queue : List Frame}
    (h : (s.ends side.peer).queue <+: queue) : queue.take (s.read side) = received s side := by
  obtain ⟨more, rfl⟩ := h
  exact List.take_append_of_le_length ((hs.read_le side).trans (hs.written_le side.peer))

theorem received_snoc {side : Side} {u : State} {frame : Frame}
    (hframe : (s.ends side.peer).queue[s.read side]? = some frame) :
    received {s with
      ends := Function.update s.ends side u
      read := Function.update s.read side (s.read side + 1)} side = received s side ++ [frame] := by
  simp only [received, Function.update_self, Function.update_of_ne (peer_ne side)]
  rw [List.take_add_one, hframe]
  rfl

/-- Nothing is heard but by reading. -/
theorem Hears.congr {side : Side} (h : Hears l s side) (hreceived : received t side = received s side)
    (hcontexts : (t.ends side).contexts = (s.ends side).contexts)
    (hmessages : Wsmq.messages (t.ends side).log = Wsmq.messages (s.ends side).log)
    (hsound : ∀ err, .errored err ∈ (t.ends side).log → .errored err ∈ (s.ends side).log) :
    Hears l t side where
  contexts := by rw [hreceived, hcontexts, h.contexts]
  messages := by rw [hreceived, hmessages, h.messages]
  sound := fun err hmem => h.sound err (hsound err hmem)

/-- One frame more is read, of a transfer that goes on. -/
theorem Hears.receive {side : Side} (h : Hears l s side)
    (hspeaks : Speaks l s side.peer) {cancels : ProgressContext → Bool} {frame : Frame} {t : State}
    (hframe : (s.ends side.peer).queue[s.read side]? = some frame)
    (hstep : Wsmq.step (l.endpoint side) (s.ends side)
      (.receive (.binary (l.protobuf.writeToBytes frame)) cancels) = some t) :
    Hears l {s with
      ends := Function.update s.ends side t
      read := Function.update s.read side (s.read side + 1)} side := by
  obtain ⟨u, hu, hcontinued⟩ := hspeaks.spoken.continued _ frame hframe
  replace hu : frameOf l.protobuf (l.protobuf.writeToBytes frame) = some (u, frame) := hu
  have hreceived := received_snoc (u := t) hframe
  obtain ⟨hcontexts, hdeliveries⟩ := heard_snoc (S := l.snap) (received s side) hu
  have hdone := receive_received hstep
  have hdispatch : messageDispatch l.protobuf l.snap cancels (s.ends side).contexts
      (l.protobuf.writeToBytes frame) =
        (Keyed.step MessageContext.next (s.ends side).contexts (u, frame),
          MessageContext.callbacks l.snap cancels ((s.ends side).contexts.lookup u) u frame) :=
    dispatch_frame hu
  refine ⟨?_, ?_, fun err hmem => ?_⟩
  · rw [hreceived, hcontexts, ← h.contexts]
    dsimp only
    rw [Function.update_self, hdone.contexts]
    exact congrArg Prod.fst hdispatch
  · rw [hreceived, hdeliveries, ← h.messages, ← h.contexts]
    dsimp only
    rw [Function.update_self, hdone.messages]
    congr 1
    exact (congrArg (fun dispatched => deliveries dispatched.2) hdispatch).trans
      (deliveries_callbacks _ _ _)
  · dsimp only at hmem
    rw [Function.update_self] at hmem
    obtain ⟨data, evs, hlog, hevs⟩ := hdone.recorded
    rw [hlog] at hmem
    rcases List.mem_append.mp hmem with hmem | hmem
    · exact h.sound err hmem
    · rcases List.mem_cons.mp hmem with hreceived | hmem
      · cases hreceived
      · obtain ⟨callback, hcallback, heq⟩ := hevs _ hmem
        cases heq
        have hcallback' : .onError err ∈ (messageDispatch l.protobuf l.snap cancels
          (s.ends side).contexts (l.protobuf.writeToBytes frame)).2 := hcallback
        rw [hdispatch] at hcallback'
        obtain ⟨past, rest, ⟨c, request, x, -, -, -, hcarries, -⟩, hcontext⟩ := hcontinued
        have hlookup : (s.ends side).contexts.lookup u = past.foldl MessageContext.next none := by
          rw [h.contexts]
          exact hcontext
        exact (carries_frame cancels hcarries fun _ => hlookup).2.1 err hcallback'

theorem Reachable.hears (hl : l.Proper) (h : l.Reachable s) (side : Side) : Hears l s side := by
  apply h.invariant
  · refine ⟨?_, ?_, fun err hmem => by cases hmem⟩ <;>
      simp [received, LinkState.init, State.init, heard, feed, Wsmq.messages, deliveries]
  · intro s a t hreach ih ha hstep
    have horder := Reachable.inOrder hreach
    have hmoves := step_moves hstep
    have hqueue := hmoves.queue_prefix side.peer
    cases hmoves with
    | @act side' b u hb hend =>
      refine ih.congr (received_of_grown horder hqueue) ?_ ?_ fun err hmem => ?_
      all_goals dsimp only at *
      all_goals by_cases hside : side = side'
      -- A step of this end.
      all_goals try
        subst hside
        obtain ⟨ev, hev⟩ := step_event hend hb
        obtain ⟨hcontexts, hmessages, hcallback⟩ := hev.unheard hb
      · rw [Function.update_self, hcontexts]
      · rw [Function.update_of_ne hside]
      · rw [Function.update_self, hmessages]
      · rw [Function.update_of_ne hside]
      · rw [Function.update_self, hev.log] at hmem
        rcases List.mem_append.mp hmem with hmem | hmem
        · exact hmem
        · cases List.mem_singleton.mp hmem
          cases hcallback
      · rwa [Function.update_of_ne hside] at hmem
    | forward => exact ih.congr rfl rfl rfl fun _ => id
    | @receive side' cancels frame u hwritten hframe hfits hend =>
      by_cases hside : side = side'
      · subst hside
        exact ih.receive (Reachable.speaks hl hreach side.peer) hframe hend
      · refine ih.congr ?_ ?_ ?_ fun err hmem => ?_
        · rw [← received_of_grown horder hqueue, received]
          dsimp only
          rw [Function.update_of_ne hside]
        all_goals dsimp only at *
        · rw [Function.update_of_ne hside]
        · rw [Function.update_of_ne hside]
        · rwa [Function.update_of_ne hside] at hmem

/-! ### Exactly once, in order -/

/-- What an end hands to `on_message` is a beginning of what the calls of the other end
posted, all of it when all frames are read, and each call posts at most once. -/
structure ExactlyOnce (s : LinkState) (side : Side) : Prop where
  in_order : messages (s.ends side).log <+:
    (posts (s.asked side.peer) (s.ends side.peer).log).map spoken
  caught_up : s.read side = (s.ends side.peer).queue.length → messages (s.ends side).log =
    (posts (s.asked side.peer) (s.ends side.peer).log).map spoken
  calls : ∀ c, PostedOnce (s.asked side.peer) c (s.ends side.peer).log

theorem Reachable.in_order (hl : l.Proper) (h : l.Reachable s) (side : Side) :
    messages (s.ends side).log <+:
      (posts (s.asked side.peer) (s.ends side.peer).log).map spoken := by
  rw [(h.hears hl side).messages, ← (h.speaks hl side.peer).spoken.posted]
  exact heard_take _ _

/-- **Every message arrives once, whole and in order**, in any interleaving of both ends. -/
theorem delivered_exactly_once (hl : l.Proper) (h : l.Reachable s) (side : Side) :
    ExactlyOnce s side where
  in_order := h.in_order hl side
  caught_up := by
    intro hread
    rw [(h.hears hl side).messages, ← (h.speaks hl side.peer).spoken.posted, received, hread,
      List.take_length]
    rfl
  calls := fun c => (h.speaks hl side.peer).told.postedOnce (Reachable.end_history h side.peer)
    hl.snap (hl.bandwidth side.peer) c

/-- Both ends with a bandwidth of sixteen. -/
def exampleLink : Link := ⟨fun _ => 16, .generated, .framed⟩

theorem exampleLink_proper : exampleLink.Proper :=
  ⟨Protobuf.generated_inverts, Snap.framed_inverts, fun _ => (by decide : (16 : UInt64) ≠ 0)⟩

/-- The client sends seventeen bytes and waits, the server answers with one. -/
def exchange : List LinkAction :=
  .act .client (.send exampleCall (.bytes longMessage)) ::
    (List.replicate 5 (.act .client (.push exampleCall)) ++
    [.act .client (.ret exampleCall), .act .client (.poll exampleCall 0)] ++
    List.replicate 5 (.forward .client) ++ List.replicate 5 (.receive .server fun _ => false) ++
    [.act .server (.reply exampleCall (.bytes [9])), .act .server (.push exampleCall),
      .act .server (.ret exampleCall), .forward .server, .receive .client (fun _ => false),
      .act .client (.poll exampleCall 0)])

theorem exchange_along (n : Nat) :
    Runs.Along exampleLink.step Fresh .init (exchange.take n) := by
  cases n with
  | zero => trivial
  | succ n =>
    rw [exchange, List.take_succ_cons]
    refine ⟨fun d _ => rfl, fun t _ => Runs.along_of_forall fun a ha s => ?_⟩
    have hmem := List.mem_of_mem_take ha
    simp only [List.mem_append, List.mem_replicate, List.mem_cons, List.not_mem_nil,
      or_false] at hmem
    rcases hmem with (((⟨-, rfl⟩ | rfl | rfl) | ⟨-, rfl⟩) | ⟨-, rfl⟩) | rfl | rfl | rfl | rfl |
      rfl | rfl <;> trivial

theorem exchange_reachable {β : Type} (n : Nat) (view : LinkState → β) {b : β}
    (h : (Runs.run exampleLink.step .init (exchange.take n)).map view = some b) :
    ∃ s, exampleLink.Reachable s ∧ view s = b := by
  obtain ⟨s, hs, hview⟩ := Option.map_eq_some_iff.mp h
  exact ⟨s, Runs.Reachable.init.along (exchange_along n) hs, hview⟩

/-- After the first half the server has the message. -/
theorem delivered_exactly_once_long : ∃ s, exampleLink.Reachable s ∧
    messages (s.ends .server).log = [(.nil, longMessage)] ∧ ExactlyOnce s .server := by
  obtain ⟨s, hs, hmessages⟩ := exchange_reachable 18 (fun s => messages (s.ends .server).log)
    (b := [(.nil, longMessage)]) (by decide +kernel)
  exact ⟨s, hs, hmessages, delivered_exactly_once exampleLink_proper hs .server⟩

/-- What a step does on the channel towards an end. -/
def observe (side : Side) (s t : LinkState) : List (Channel.Op (Uuid × Bytes)) :=
  ((((posts (t.asked side.peer) (t.ends side.peer).log).map spoken).drop
      (posts (s.asked side.peer) (s.ends side.peer).log).length).map .post) ++
    ((messages (t.ends side).log).drop (messages (s.ends side).log).length).map .take

theorem Moves.posts_prefix {a : LinkAction} (h : Moves l s a t) (hs : l.Reachable s)
    (side : Side) : posts (s.asked side) (s.ends side).log <+:
      posts (t.asked side) (t.ends side).log := by
  have hhistory := Reachable.end_history hs side
  have hgrows : ∀ {u : State} {b : Action}, Wsmq.step (l.endpoint side) (s.ends side) b = some u →
      posts (s.asked side) (s.ends side).log <+: posts (s.asked side) u.log := by
    intro u b hb
    refine step_events (P := fun u => posts (s.asked side) (s.ends side).log <+:
      posts (s.asked side) u.log) (List.prefix_refl _) (fun u ev v hu hev => ?_) hb
    rw [hev.log, posts_snoc]
    exact hu.trans (List.prefix_append _ _)
  cases h with
  | @act side' b u hb hend =>
    by_cases hside : side = side'
    · subst hside
      dsimp only
      rw [Function.update_self, Function.update_self]
      obtain ⟨ev, hev⟩ := step_event hend hb
      rw [hev.log, posts_snoc, hhistory.posts_asks fun c hc => hev.asks c hc]
      exact List.prefix_append _ _
    · dsimp only
      rw [Function.update_of_ne hside, Function.update_of_ne hside]
  | forward => exact List.prefix_refl _
  | @receive side' cancels frame u hwritten hframe hfits hend =>
    by_cases hside : side = side'
    · subst hside
      dsimp only
      rw [Function.update_self]
      exact hgrows hend
    · dsimp only
      rw [Function.update_of_ne hside]

theorem Moves.messages_prefix {a : LinkAction} (h : Moves l s a t) (side : Side) :
    messages (s.ends side).log <+: messages (t.ends side).log := by
  obtain heq | ⟨b, hb, -⟩ := h.end_step side
  · rw [heq]
  · refine step_events (P := fun u => messages (s.ends side).log <+: messages u.log)
      (List.prefix_refl _) (fun u ev v hu hev => ?_) hb
    rw [hev.log, messages_append]
    exact hu.trans (List.prefix_append _ _)

/-- A channel that holds what was posted and taken in one direction. -/
structure Mirrors (s : LinkState) (side : Side) (c : Channel (Uuid × Bytes)) : Prop where
  posted : c.posted = (posts (s.asked side.peer) (s.ends side.peer).log).map spoken
  taken : c.taken = messages (s.ends side).log

theorem Mirrors.step (hl : l.Proper) (hs : l.Reachable s) {a : LinkAction} (ha : Fresh s a)
    (hstep : l.step s a = some t) {side : Side} {c : Channel (Uuid × Bytes)}
    (h : Mirrors s side c) :
    ∃ d, Runs.run Channel.step c (observe side s t) = some d ∧ Mirrors t side d := by
  have hmoves := step_moves hstep
  have horder := Reachable.in_order hl (hs.step ha hstep) side
  obtain ⟨newPosts, hposts⟩ := (hmoves.posts_prefix hs side.peer).map spoken
  obtain ⟨newMessages, hmessages⟩ := hmoves.messages_prefix side
  have hobserve : observe side s t = newPosts.map .post ++ newMessages.map .take := by
    rw [observe, ← hposts, ← hmessages, List.drop_left, List.drop_left' (by simp)]
  rw [← hposts, ← hmessages, ← h.posted, ← h.taken] at horder
  obtain ⟨d, hd, hposted, htaken⟩ := c.run_advance horder
  refine ⟨d, by rw [hobserve, hd], ?_, ?_⟩
  · rw [hposted, h.posted, hposts]
  · rw [htaken, h.taken, hmessages]

/-- **A link is a channel of messages** in each direction: what its steps post and take, one
after another, is a run of the channel. -/
theorem follows_channel (hl : l.Proper) {actions : List LinkAction}
    (halong : Runs.Along l.step Fresh .init actions)
    (hrun : Runs.run l.step .init actions = some s) (side : Side) :
    ∃ c, Runs.run Channel.step .empty (Runs.trace l.step (observe side) .init actions) = some c ∧
      Mirrors s side c := by
  have hstart : l.Reachable .init ∧ Mirrors .init side .empty := ⟨.init, rfl, rfl⟩
  have hstep : ∀ s c a t, l.Reachable s ∧ Mirrors s side c → Fresh s a → l.step s a = some t →
      ∃ d, Runs.run Channel.step c (observe side s t) = some d ∧
        l.Reachable t ∧ Mirrors t side d := by
    rintro s c a t ⟨hreach, hmirrors⟩ ha hstep
    obtain ⟨d, hd, hmirrors'⟩ := hmirrors.step hl hreach ha hstep
    exact ⟨d, hd, hreach.step ha hstep, hmirrors'⟩
  obtain ⟨c, hc, -, hmirrors⟩ := Runs.run_follows hstep hstart halong hrun
  exact ⟨c, hc, hmirrors⟩

/-- The answer on the channel back to the client. -/
theorem follows_channel_exchange : ∃ s c, Runs.run exampleLink.step .init exchange = some s ∧
    Runs.run Channel.step .empty (Runs.trace exampleLink.step (observe .client) .init exchange) =
      some c ∧ Mirrors s .client c ∧ c.taken = [(.nil, [9])] := by
  have hview : (Runs.run exampleLink.step .init exchange).map
      (fun s => messages (s.ends .client).log) = some [(.nil, [9])] := by decide +kernel
  obtain ⟨s, hs, hmessages⟩ := Option.map_eq_some_iff.mp hview
  have halong : Runs.Along exampleLink.step Fresh .init exchange := exchange_along 24
  obtain ⟨c, hc, hmirrors⟩ := follows_channel exampleLink_proper halong hs .client
  exact ⟨s, c, hs, hc, hmirrors, hmirrors.taken.trans hmessages⟩

end Link
end Wsmq
