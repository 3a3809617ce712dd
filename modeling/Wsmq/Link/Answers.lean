import Wsmq.Link.Delivery

/-! Where the answers of a client come from.

A poll that is ready hands over the message that completed the entry and leaves an empty one
behind. So what the futures of a uuid answer with is, in order and without repetition, among
what was heard under it (`History.answered_sublist`), and that is what the server replied
(`answers_in_order`). No reply comes unasked: the call that made it began when the server had
been handed a message of that uuid, and a call of the client had sent it (`answers_caused`). -/
namespace Wsmq

/-- The message an answer for `u` hands over. A future that is polled again has none. -/
def Event.answer (u : Uuid) : Event → Option Bytes
  | .polled f _ (.readyOk r) => if f.uuid = u ∧ r.data ≠ [] then some r.data else none
  | _ => none

def answered (u : Uuid) (log : List Event) : List Bytes := log.filterMap (Event.answer u)

/-- The messages under `u`. -/
def under (u : Uuid) (ms : List (Uuid × Bytes)) : List Bytes :=
  (ms.filter fun m => m.1 = u).map Prod.snd

/-- The message that an entry holds for a poll to take. -/
def Entry.held : Option Status → List Bytes
  | some (.completed data) => if data = [] then [] else [data]
  | _ => []

variable {e : Endpoint} {Allowed : State → Action → Prop} {s t : State} {u : Uuid}

theorem answered_snoc (log : List Event) (ev : Event) :
    answered u (log ++ [ev]) = answered u log ++ (ev.answer u).toList :=
  filterMap_snoc (Event.answer u)

theorem Event.answer_ne {f : Ticket} {w : Waker} {r : Poll} (hu : f.uuid ≠ u) :
    (Event.polled f w r).answer u = none := by
  cases r with
  | readyOk response => exact if_neg fun h => hu h.1
  | _ => rfl

theorem under_append (a b : List (Uuid × Bytes)) : under u (a ++ b) = under u a ++ under u b := by
  rw [under, List.filter_append, List.map_append]
  rfl

theorem mem_under {ms : List (Uuid × Bytes)} {x : Bytes} : x ∈ under u ms ↔ (u, x) ∈ ms := by
  simp [under]

/-! ### A message is taken at most once -/

theorem held_completed (x : Bytes) : (Entry.held (some (.completed x))).Sublist [x] := by
  rw [Entry.held]
  split
  · exact List.nil_sublist _
  · exact List.Sublist.refl _

theorem held_deliver (x : Bytes) (entry : Option Status) :
    (Entry.held (Entry.deliver x entry)).Sublist [x] := by
  rcases entry with - | - | w | data
  · exact List.nil_sublist _
  · exact List.nil_sublist _
  · exact held_completed x
  · exact List.nil_sublist _

theorem Occurs.answered_sublist {a : Action} {ev : Event} (h : Occurs e s a ev t)
    (hs : (answered u s.log ++ Entry.held (s.responses.lookup u)).Sublist
      (under u (messages s.log))) :
    (answered u t.log ++ Entry.held (t.responses.lookup u)).Sublist
      (under u (messages t.log)) := by
  rw [h.log, answered_snoc, messages_append, under_append, h.lookup u]
  generalize hentry : s.responses.lookup u = entry at hs
  -- Nothing is taken, and the entry holds no more than before.
  have hquiet : ∀ {ev : Event} {entry' : Option Status}, ev.answer u = none →
      (Entry.held entry').Sublist (Entry.held entry) →
      (answered u s.log ++ (ev.answer u).toList ++ Entry.held entry').Sublist
        (under u (messages s.log) ++ under u (messages [ev])) := by
    intro ev entry' hanswer hheld
    rw [hanswer, Option.toList_none, List.append_nil]
    exact (hheld.append_left _).trans (hs.trans (List.sublist_append_left _ _))
  cases h with
  | sent | replied =>
    refine hquiet rfl ?_
    simp only [Event.entry]
    split
    · rcases entry with - | - | w | data <;> exact List.Sublist.refl _
    · exact List.Sublist.refl _
  | @polled f w =>
    rw [poll_result, Event.entry_polled _ _ _ _ _ (result_ne_mutexError _ _)]
    by_cases hu : u = f.uuid
    · subst hu
      rw [if_pos rfl, hentry]
      rcases entry with - | - | w' | data
      · exact hquiet rfl (List.nil_sublist _)
      · exact hquiet rfl (List.nil_sublist _)
      · exact hquiet rfl (List.nil_sublist _)
      · by_cases hdata : data = []
        · subst hdata
          exact hquiet (by simp [Entry.result, Event.answer]) (List.nil_sublist _)
        · have hanswer : Event.answer f.uuid (.polled f w (.readyOk ⟨f.uuid, data⟩)) = some data :=
            if_pos ⟨rfl, hdata⟩
          rw [Entry.held, if_neg hdata] at hs
          rw [Entry.result, hanswer]
          show (answered f.uuid s.log ++ [data] ++ []).Sublist (under f.uuid (messages s.log) ++ [])
          rwa [List.append_nil, List.append_nil]
    · rw [if_neg hu]
      exact hquiet (Event.answer_ne (Ne.symm hu)) (List.Sublist.refl _)
  | dropped =>
    refine hquiet rfl ?_
    simp only [Event.entry]
    split
    · exact List.nil_sublist _
    · exact List.Sublist.refl _
  | delivered v x =>
    rw [onMessage_outcome, Event.entry_delivered]
    by_cases hu : u = v
    · subst hu
      have hmessage : under u (messages [.delivered u x (Entry.outcome (s.responses.lookup u))]) =
          [x] := by simp [messages, Event.message, under]
      rw [if_pos rfl, hmessage]
      show (answered u s.log ++ [] ++ _).Sublist _
      rw [List.append_nil]
      exact ((List.sublist_append_left _ _).trans hs).append (held_deliver x entry)
    · rw [if_neg hu]
      exact hquiet rfl (List.Sublist.refl _)
  | clearEmptied => exact hquiet rfl (List.nil_sublist _)
  | _ => exact hquiet rfl (List.Sublist.refl _)

/-- **No message is taken twice**, and none before one that came earlier. -/
theorem History.answered_sublist (h : History e Allowed s) (u : Uuid) :
    (answered u s.log).Sublist (under u (messages s.log)) := by
  suffices (answered u s.log ++ Entry.held (s.responses.lookup u)).Sublist
      (under u (messages s.log)) from (List.sublist_append_left _ _).trans this
  induction h with
  | init => exact List.Sublist.refl _
  | event hs ha hev ih => exact hev.answered_sublist ih

/-! ### Who has a `Response` was handed a message -/

theorem entryAt_completed {log : List Event} {data : Bytes}
    (h : entryAt u log = some (.completed data)) : ∃ x, (u, x) ∈ messages log := by
  refine foldl_entry (P := fun entry => ∀ data, entry = some (.completed data) →
    ∃ x, (u, x) ∈ messages log) (fun data h => by cases h) (fun ev hev g hg entry hentry => ?_)
    data h
  cases hg with
  | opened hu | polled hu =>
    intro data' h
    rcases entry with - | - | w | data
    · cases h
    · cases h
    · cases h
    · exact hentry data rfl
  | dropped hu => exact fun data h => by cases h
  | delivered x outcome =>
    exact fun _ _ => ⟨x, List.mem_filterMap.mpr ⟨_, hev, rfl⟩⟩
  | emptied => exact fun data h => by cases h
  | other => exact hentry

theorem History.responds (h : History e Allowed s) (hresponse : hasResponse u s.log) :
    ∃ x, (u, x) ∈ messages s.log := by
  obtain ⟨ev, hmem, hgives⟩ := List.any_eq_true.mp hresponse
  obtain ⟨l, l', hlog⟩ := List.append_of_mem hmem
  cases ev with
  | polled f w r =>
    cases r with
    | readyOk response =>
      have huuid : response.uuid = u := of_decide_eq_true hgives
      rcases h.polled hlog with ⟨-, hr⟩ | ⟨-, hr⟩
      · cases hr
      · obtain ⟨hcompleted, hu⟩ := result_readyOk hr.symm
        rw [← hu, huuid] at hcompleted
        obtain ⟨x, hx⟩ := entryAt_completed hcompleted
        refine ⟨x, ?_⟩
        rw [hlog, messages_append]
        exact List.mem_append_left _ hx
    | _ => cases hgives
  | delivered v x outcome =>
    cases outcome with
    | handed =>
      have huuid : v = u := of_decide_eq_true hgives
      exact ⟨x, List.mem_filterMap.mpr ⟨_, hmem, by rw [← huuid]; rfl⟩⟩
    | _ => cases hgives
  | _ => cases hgives

/-- A call of the server begins after a message of its uuid was handed over. -/
theorem History.reply_heard (hside : e.side = .server) (h : History e Allowed s) {l l' : List Event}
    {c : Ticket} (hlog : s.log = l ++ .opened c :: l') : ∃ x, (c.uuid, x) ∈ messages l := by
  obtain ⟨s₀, a, t₀, hs₀, rfl, -, hoccurs, -⟩ := h.cut hlog
  cases hoccurs with
  | sent hclient => cases hside.symm.trans hclient
  | replied hresponse => exact hs₀.responds hresponse

/-- Who posts a message was asked for it, and has begun. -/
theorem mem_posts {asked : Ticket → Option Request} {log : List Event} {c : Ticket} {x : Bytes}
    (h : (c, x) ∈ posts asked log) :
    (∃ frame, .queued c frame ∈ log) ∧
      ∃ request, asked c = some request ∧ request.payload = some x := by
  obtain ⟨ev, hev, hpost⟩ := List.mem_filterMap.mp h
  cases ev with
  | queued d frame =>
    simp only [Event.post] at hpost
    split at hpost
    · obtain ⟨request, hrequest, hx⟩ := Option.bind_eq_some_iff.mp hpost
      obtain ⟨y, hy, heq⟩ := Option.map_eq_some_iff.mp hx
      cases heq
      exact ⟨⟨frame, hev⟩, request, hrequest, hy⟩
    · cases hpost
  | _ => cases hpost

namespace Link
variable {l : Link} {s : LinkState}

/-- **Answers are replies, in order**: what the futures of a uuid hand over is, in order, among
what the server replied under it, each reply at most once. -/
theorem answers_in_order (hl : l.Proper) (h : l.Reachable s) (u : Uuid) :
    (answered u (s.ends .client).log).Sublist
      (under u ((posts (s.asked .server) (s.ends .server).log).map spoken)) := by
  obtain ⟨more, hmore⟩ := h.in_order hl .client
  have hheard := (h.end_history .client).answered_sublist u
  rw [show Side.server = Side.client.peer from rfl, ← hmore, under_append]
  exact hheard.trans (List.sublist_append_left _ _)

/-- `data` is what call `d` of the server replied, having been handed the message `x` that call
`c` of the client sent, all under one uuid. -/
structure Replied (s : LinkState) (u : Uuid) (data : Bytes) (c d : Ticket) (x : Bytes) : Prop where
  same_uuid : c.uuid = u ∧ d.uuid = u
  requested : (c, x) ∈ posts (s.asked .client) (s.ends .client).log
  replied : (d, data) ∈ posts (s.asked .server) (s.ends .server).log
  caused : ∃ before after, (s.ends .server).log = before ++ .opened d :: after ∧
    (u, x) ∈ messages before

/-- **No answer comes unasked.** -/
theorem answers_caused (hl : l.Proper) (h : l.Reachable s) {f : Ticket} {w : Waker} {r : Response}
    (hpolled : .polled f w (.readyOk r) ∈ (s.ends .client).log) (hdata : r.data ≠ []) :
    ∃ c d x, Replied s f.uuid r.data c d x := by
  have hanswer : r.data ∈ answered f.uuid (s.ends .client).log :=
    List.mem_filterMap.mpr ⟨_, hpolled, if_pos ⟨rfl, hdata⟩⟩
  obtain ⟨⟨d, x⟩, hposted, heq⟩ :=
    List.mem_map.mp (mem_under.mp ((answers_in_order hl h f.uuid).subset hanswer))
  obtain ⟨hd, rfl⟩ := Prod.mk.inj heq
  have hserver := h.end_history .server
  obtain ⟨⟨frame, hqueued⟩, -⟩ := mem_posts hposted
  have hbegun : (s.ends .server).calls d ≠ .idle := by
    have hrank := hserver.rank_le hqueued d
    intro hidle
    simp [Event.rank, hidle, Stage.rank] at hrank
  obtain ⟨before, after, hlog⟩ :=
    List.append_of_mem (hserver.begun_opened (hserver.unpanicked (hl.bandwidth .server)).1 hbegun)
  obtain ⟨y, hy⟩ := hserver.reply_heard rfl hlog
  -- What the server was handed, the client posted.
  have hheard : (d.uuid, y) ∈ messages (s.ends .server).log := by
    rw [hlog, messages_append]
    exact List.mem_append_left _ hy
  obtain ⟨⟨c, z⟩, hrequested, heq'⟩ := List.mem_map.mp ((h.in_order hl .server).subset hheard)
  obtain ⟨hc, rfl⟩ := Prod.mk.inj heq'
  have hd' : d.uuid = f.uuid := hd
  exact ⟨c, d, z, ⟨hc.trans hd', hd'⟩, hrequested, hposted, before, after, hlog, hd' ▸ hy⟩

/-- The answer of the exchange. -/
theorem answers_caused_exchange : ∃ s, exampleLink.Reachable s ∧
    (s.ends .client).log.getLast? = some (.polled exampleCall 0 (.readyOk ⟨.nil, [9]⟩)) ∧
    ∃ c d x, Replied s .nil [9] c d x := by
  obtain ⟨s, hs, hlast⟩ := exchange_reachable 24 (fun s => (s.ends .client).log.getLast?)
    (b := some (.polled exampleCall 0 (.readyOk ⟨.nil, [9]⟩))) (by decide +kernel)
  exact ⟨s, hs, hlast,
    answers_caused exampleLink_proper hs (List.mem_of_getLast? hlast) (List.cons_ne_nil _ _)⟩

theorem answers_in_order_exchange : ∃ s, exampleLink.Reachable s ∧
    answered .nil (s.ends .client).log = [[9]] ∧
    (answered .nil (s.ends .client).log).Sublist
      (under .nil ((posts (s.asked .server) (s.ends .server).log).map spoken)) := by
  obtain ⟨s, hs, hanswered⟩ := exchange_reachable 24 (fun s => answered .nil (s.ends .client).log)
    (b := [[9]]) (by decide +kernel)
  exact ⟨s, hs, hanswered, answers_in_order exampleLink_proper hs .nil⟩

end Link
end Wsmq
