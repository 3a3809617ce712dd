import Wsmq.Link.Answers
import Wsmq.Link.Quiet

/-! A request, its reply, and the future that waits for it.

When a future has been polled and the server makes the one reply to its request, then the link
needs nobody any more: left alone it comes to rest (`rests`), the waker of the future was woken,
and the next poll returns the bytes of the reply (`request_answered`). -/
namespace Wsmq
open Receiver

/-- A call goes on, or a message is received. -/
def Action.goesOn : Action → Prop
  | .push _ | .ret _ | .receive _ _ => True
  | _ => False

/-- A waiting entry, as the messages of its uuid come: it waits, or the first was stored and the
waker woken, or there were more. -/
inductive Waits (u : Uuid) (w : Waker) (s : State) (new : List Event) : Prop where
  | still (hnone : under u (messages new) = [])
      (hentry : s.responses.lookup u = some (.started w)) : Waits u w s new
  | answered {x : Bytes} (hone : under u (messages new) = [x])
      (hentry : s.responses.lookup u = some (.completed x))
      (hwoken : .delivered u x (.woke w) ∈ new) : Waits u w s new
  | more (hmore : 2 ≤ (under u (messages new)).length) : Waits u w s new

variable {e : Endpoint} {s t : State} {u : Uuid} {w : Waker} {new : List Event} {a : Action}
  {ev : Event}

theorem Waits.quiet (h : Waits u w s new) (hlookup : t.responses.lookup u = s.responses.lookup u)
    (hev : under u (messages [ev]) = []) : Waits u w t (new ++ [ev]) := by
  have hunder : under u (messages (new ++ [ev])) = under u (messages new) := by
    rw [messages_append, under_append, hev, List.append_nil]
  cases h with
  | still hnone hentry => exact .still (hunder.trans hnone) (hlookup.trans hentry)
  | answered hone hentry hwoken =>
    exact .answered (hunder.trans hone) (hlookup.trans hentry) (List.mem_append_left _ hwoken)
  | more hmore => exact .more (hunder ▸ hmore)

theorem Waits.delivered (h : Waits u w s new) (x : Bytes)
    (hlookup : t.responses.lookup u = Entry.deliver x (s.responses.lookup u)) :
    Waits u w t (new ++ [.delivered u x (Entry.outcome (s.responses.lookup u))]) := by
  have hunder : under u (messages (new ++ [.delivered u x
      (Entry.outcome (s.responses.lookup u))])) = under u (messages new) ++ [x] := by
    rw [messages_append, under_append]
    simp [messages, Event.message, under]
  cases h with
  | still hnone hentry =>
    rw [hentry] at hlookup hunder ⊢
    exact .answered (by rw [hunder, hnone]; rfl) hlookup (List.mem_append_right _ (by
      simp [Entry.outcome]))
  | answered hone hentry hwoken =>
    refine .more ?_
    rw [hunder, hone]
    exact Nat.le_refl 2
  | more hmore =>
    refine .more (hmore.trans ?_)
    rw [hunder, List.length_append]
    exact Nat.le_add_right _ _

theorem Occurs.waits (hside : e.side = .client) (h : Occurs e s a ev t) (ha : a.goesOn)
    (hpoisoned : s.lock ≠ .poisoned) (hw : Waits u w s new) : Waits u w t (new ++ [ev]) := by
  cases h with
  | queued | refused | returnedOk | returnedErr | panicked | poisoned | received | progressed
  | errored | canceled => exact hw.quiet rfl rfl
  | handed _ _ hserver => cases hside.symm.trans hserver
  | deliverFailed _ _ _ hlock => exact absurd hlock hpoisoned
  | delivered v x =>
    rw [onMessage_outcome]
    by_cases hv : u = v
    · subst hv
      exact hw.delivered x ((lookup_onMessage ..).trans (if_pos rfl))
    · refine hw.quiet ((lookup_onMessage ..).trans (if_neg hv)) ?_
      simp [messages, Event.message, under, Ne.symm hv]
  | _ => exact ha.elim

/-- A future stays where it is while calls go on. -/
theorem Occurs.stays_live (h : Occurs e s a ev t) (ha : a.goesOn) {f : Ticket}
    (hlive : s.calls f = .live) : t.calls f = .live := by
  refine h.live_after hlive fun removed heq => ?_
  subst heq
  cases h <;> exact ha.elim

/-- One step of the client, from where the future waits. -/
theorem waits_step (hside : e.side = .client) (hb : e.bandwidth ≠ 0) (hs : History e FreshUuid s)
    (ha : a.goesOn) (hstep : step e s a = some t) {f : Ticket} (hlive : s.calls f = .live)
    (hw : Waits u w s new) :
    t.calls f = .live ∧ ∃ more, t.log = s.log ++ more ∧ Waits u w t (new ++ more) := by
  have hfresh : ∀ v, FreshUuid v a := fun v => by cases a <;> trivial
  suffices History e FreshUuid t ∧ t.calls f = .live ∧
      ∃ more, t.log = s.log ++ more ∧ Waits u w t (new ++ more) from this.2
  refine step_events (P := fun v => History e FreshUuid v ∧ v.calls f = .live ∧
    ∃ more, v.log = s.log ++ more ∧ Waits u w v (new ++ more)) ?_ ?_ hstep
  · exact ⟨hs, hlive, [], by simp, by rwa [List.append_nil]⟩
  · rintro v ev v' ⟨hv, hlive, more, hlog, hw⟩ hev
    refine ⟨.event hv (.inl (hfresh v)) hev, hev.stays_live ha hlive, more ++ [ev], ?_, ?_⟩
    · rw [hev.log, hlog, List.append_assoc]
    · rw [← List.append_assoc]
      exact hev.waits hside ha (hv.unpanicked hb).1 hw

namespace Link
variable {l : Link} {s t : LinkState} {F : Finset Ticket} {f d : Ticket}

/-- What a link at rest keeps, on its way there, of a state in which `f` waits. -/
structure Awaiting (l : Link) (F : Finset Ticket) (s : LinkState) (f : Ticket) (w : Waker)
    (t : LinkState) : Prop where
  going : Going l F t
  asked : t.asked = s.asked
  live : (t.ends .client).calls f = .live
  waits : ∃ new, (t.ends .client).log = (s.ends .client).log ++ new ∧
    Waits f.uuid w (t.ends .client) new

theorem Awaiting.step (hl : l.Proper) {u : LinkState} (h : Awaiting l F s f w t) {a : LinkAction}
    (ha : a.Internal) (hstep : l.step t a = some u) : Awaiting l F s f w u := by
  have hmoves := step_moves hstep
  have hclient := h.going.reachable.end_history .client
  obtain ⟨new, hlog, hwaits⟩ := h.waits
  have hend : (u.ends .client).calls f = .live ∧ ∃ more,
      (u.ends .client).log = (t.ends .client).log ++ more ∧
        Waits f.uuid w (u.ends .client) (new ++ more) := by
    obtain heq | ⟨b, hb, hcause⟩ := hmoves.end_step .client
    · rw [heq]
      exact ⟨h.live, [], by simp, by rwa [List.append_nil]⟩
    · have hgoes : b.goesOn := by
        obtain hreceive | rfl := hcause
        · cases b <;> trivial
        · cases ha <;> trivial
      exact waits_step rfl (hl.bandwidth .client) hclient hgoes hb h.live hwaits
  obtain ⟨hlive, more, hmore, hwaits'⟩ := hend
  refine ⟨(h.going.step ha hstep).1, (hmoves.asked_eq ha).trans h.asked, hlive, new ++ more, ?_,
    hwaits'⟩
  rw [hmore, hlog, List.append_assoc]

/-- The one call that was asked to reply under a uuid posts all that is posted under it. -/
theorem under_posts {asked : Ticket → Option Request} {log : List Event} {x : Bytes}
    (honce : PostedOnce asked d log)
    (honly : ∀ c, asked c ≠ none → c.uuid = d.uuid → c = d)
    (hposted : (d.uuid, x) ∈ (posts asked log).map spoken) :
    under d.uuid ((posts asked log).map spoken) = [x] := by
  have hown : ∀ post ∈ posts asked log, (post.1.uuid = d.uuid ↔ post.1 = d) := by
    rintro ⟨c, y⟩ hmem
    obtain ⟨-, request, hrequest, -⟩ := mem_posts hmem
    refine ⟨honly c ?_, fun hc => congrArg Ticket.uuid hc⟩
    rw [hrequest]
    exact Option.some_ne_none _
  have hunder : under d.uuid ((posts asked log).map spoken) =
      (postsOf asked d log).map Prod.snd := by
    rw [under, List.filter_map, List.map_map, postsOf]
    congr 1
    refine List.filter_congr fun post hmem => ?_
    simp only [Function.comp, spoken, hown post hmem]
  obtain ⟨⟨c, y⟩, hmem, heq⟩ := List.mem_map.mp hposted
  obtain ⟨hc, rfl⟩ := Prod.mk.inj heq
  obtain rfl := (hown _ hmem).mp hc
  have hpost : (c, y) ∈ postsOf asked c log := List.mem_filter.mpr ⟨hmem, decide_eq_true rfl⟩
  obtain ⟨post, hone⟩ := List.length_eq_one_iff.mp
    (Nat.le_antisymm honce.once (List.length_pos_of_mem hpost))
  rw [hone] at hpost
  cases List.mem_singleton.mp hpost
  rw [hunder, hone]
  rfl

/-- **A request is answered.** A future was polled and waits; the server was asked for one reply
under its uuid, and nothing has come of it; no frame is too long for the other end. Then where the
link comes to rest, however it gets there, the waker was woken and the next poll returns the
reply. -/
theorem request_answered (hl : l.Proper) (h : l.Reachable s)
    (hrunning : ∀ side, (s.ends side).task = .running) (hfitting : Fitting l s)
    (hlive : (s.ends .client).calls f = .live)
    (hwaiting : (s.ends .client).responses.lookup f.uuid = some (.started w))
    (hunheard : under f.uuid (messages (s.ends .client).log) = []) {request : Request} {x : Bytes}
    (hreply : s.asked .server d = some request) (hx : request.payload = some x)
    (huuid : d.uuid = f.uuid)
    (honly : ∀ c, .opened c ∈ (s.ends .server).log → c.uuid = d.uuid → c = d)
    {actions : List LinkAction} (hall : ∀ a ∈ actions, LinkAction.Internal a)
    (hrun : Runs.run l.step s actions = some t)
    (hstuck : ∀ a : LinkAction, a.Internal → l.step t a = none) (w' : Waker) :
    .delivered f.uuid x (.woke w) ∈ (t.ends .client).log ∧
      ∃ u, l.step t (.act .client (.poll f w')) = some u ∧ (u.ends .client).log =
        (t.ends .client).log ++ [.polled f w' (.readyOk ⟨f.uuid, x⟩)] := by
  obtain ⟨F, hgoing⟩ := h.going hrunning hfitting
  have hawaiting : Awaiting l F s f w t := by
    refine Runs.run_invariant ?_ (fun s a t hmem hs hstep => hs.step hl (hall a hmem) hstep) hrun
    exact ⟨hgoing, rfl, hlive, [], by simp, .still rfl hwaiting⟩
  have hclient := hawaiting.going.reachable.end_history .client
  have hsettled := hawaiting.going.settled hl hstuck
  have hsole : ∀ c, t.asked .server c ≠ none → c.uuid = d.uuid → c = d := by
    intro c hc
    obtain ⟨r, hr⟩ := Option.ne_none_iff_exists'.mp hc
    rw [hawaiting.asked] at hr
    have hserver := h.end_history .server
    exact honly c (hserver.begun_opened (hserver.unpanicked (hl.bandwidth .server)).1
      ((h.speaks hl .server).spoken.asked_begun c r hr))
  -- All that was heard under the uuid is the reply.
  have hheard : under f.uuid (messages (t.ends .client).log) = [x] := by
    have harrived := (hsettled .client).arrived d request x (hawaiting.asked ▸ hreply) hx
    rw [(hsettled .client).in_order] at harrived ⊢
    rw [← huuid]
    exact under_posts ((delivered_exactly_once hl hawaiting.going.reachable .client).calls d)
      hsole harrived
  obtain ⟨new, hlog, hwaits⟩ := hawaiting.waits
  rw [hlog, messages_append, under_append, hunheard, List.nil_append] at hheard
  cases hwaits with
  | still hnone => cases hnone.symm.trans hheard
  | more hmore =>
    rw [hheard] at hmore
    exact absurd hmore (by simp)
  | @answered y hone hentry hwoken =>
    cases hone.symm.trans hheard
    have hlock : (t.ends .client).lock = .free := by
      cases hlock : (t.ends .client).lock with
      | free => rfl
      | held c =>
        obtain ⟨rest, hrest⟩ := hclient.holder_sends hlock
        exact absurd hrest ((hsettled .server).returned c rest)
      | poisoned => exact absurd hlock (hclient.unpanicked (hl.bandwidth .client)).1
    refine ⟨by rw [hlog]; exact List.mem_append_right _ hwoken, _,
      moves_step (.act id (occurs_step (.polled hawaiting.live hlock) id)), ?_⟩
    dsimp only
    rw [Function.update_self, State.record_log, poll_result, hentry]
    rfl

/-- The exchange, left alone when the server has been asked to reply. -/
theorem request_answered_exchange : ∃ s actions t, exampleLink.Reachable s ∧
    (∀ a ∈ actions, LinkAction.Internal a) ∧ Runs.run exampleLink.step s actions = some t ∧
    ∃ u, exampleLink.step t (.act .client (.poll exampleCall 3)) = some u ∧ (u.ends .client).log =
      (t.ends .client).log ++ [.polled exampleCall 3 (.readyOk ⟨.nil, [9]⟩)] := by
  obtain ⟨s, hs, hfitting, hview⟩ := exchange_fits 19
    (fun s => decide ((s.ends .client).task = .running ∧ (s.ends .server).task = .running ∧
      (s.ends .client).calls exampleCall = .live ∧
      (s.ends .client).responses.lookup .nil = some (.started 0) ∧
      under .nil (messages (s.ends .client).log) = [] ∧
      s.asked .server exampleCall = some (.bytes [9]) ∧
      openedCalls (s.ends .server).log = [exampleCall])) (b := true) (by decide +kernel)
  obtain ⟨hclient, hserver, hlive, hwaiting, hunheard, hasked, hopened⟩ := of_decide_eq_true hview
  have hrunning : ∀ side, (s.ends side).task = .running := by
    intro side
    cases side with
    | client => exact hclient
    | server => exact hserver
  have honly : ∀ c, .opened c ∈ (s.ends .server).log → c.uuid = exampleCall.uuid →
      c = exampleCall := by
    intro c hmem _
    have hc : c ∈ openedCalls (s.ends .server).log := mem_openedCalls.mpr hmem
    rw [hopened] at hc
    exact List.mem_singleton.mp hc
  obtain ⟨-, ⟨actions, t, hall, hrun, hstuck⟩, -⟩ := rests exampleLink_proper hs hrunning hfitting
  have hanswered := request_answered exampleLink_proper hs hrunning hfitting hlive hwaiting
    hunheard hasked rfl rfl honly hall hrun hstuck 3
  exact ⟨s, actions, t, hs, hall, hrun, hanswered.2⟩

end Link
end Wsmq
