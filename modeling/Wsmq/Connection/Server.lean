import Wsmq.Connection.Ending

/-! The futures of the server.

`reply` returns the same future on both ends, but what completes and wakes it is the
client's `on_message` and the client's `clear`. The server hands every message to the
user and ends without clearing: nothing that happens there wakes anyone
(`Occurs.wakes_nobody`), and a future that waits goes on waiting (`server_waits`). -/
namespace Wsmq

variable {e : Endpoint} {Allowed : State → Action → Prop} {s t : State} {f : Ticket}

/-- A waiting future whose turn has come: a message for its uuid was dispatched since its
last poll, or the connection is ending or has ended. -/
structure Due (s : State) (f : Ticket) (w : Waker) (since : List Event) : Prop where
  live : s.calls f = .live
  pending : PendingSince s.log f w since
  turn : (∃ x outcome, .delivered f.uuid x outcome ∈ since) ∨ s.task ≠ .running

/-- The future was woken since its last poll, and its next poll is ready. -/
def Resolves (e : Endpoint) (s : State) (f : Ticket) (w : Waker) (since : List Event) : Prop :=
  (∃ ev ∈ since, ∃ u, ev.wakes u w) ∧ ∀ w' t, step e s (.poll f w') = some t →
    ∃ r, t.log = s.log ++ [.polled f w' r] ∧ r ≠ .pending

/-! ### Nobody is woken -/

theorem Occurs.wakes_nobody (hside : e.side = .server) {a : Action} {ev : Event}
    (h : Occurs e s a ev t) (u : Uuid) (w : Waker) : ¬ ev.wakes u w := by
  cases h with
  | delivered _ _ hclient => cases hside.symm.trans hclient
  | clearWoke hclient => cases hside.symm.trans hclient
  | _ => exact id

theorem History.wakes_nobody (hside : e.side = .server) (h : History e Allowed s) {ev : Event}
    (hev : ev ∈ s.log) (u : Uuid) (w : Waker) : ¬ ev.wakes u w := by
  obtain ⟨l, l', hlog⟩ := List.append_of_mem hev
  obtain ⟨s₀, a, t₀, -, -, -, hoccurs, -⟩ := h.cut hlog
  exact hoccurs.wakes_nobody hside u w

/-- **A future of the server never resolves**, whatever messages arrive for it and however
the connection ends. -/
theorem server_never_resolves (hside : e.side = .server)
    (h : Runs.Reachable (step e) (fun _ _ => True) .init s) {w : Waker} {since : List Event}
    (hdue : Due s f w since) : ¬ Resolves e s f w since := by
  intro hresolves
  obtain ⟨⟨ev, hev, u, hwakes⟩, -⟩ := hresolves
  obtain ⟨⟨l, hlog⟩, -⟩ := hdue.pending
  refine (history_of_reachable h).wakes_nobody hside ?_ u w hwakes
  rw [hlog]
  exact List.mem_append_right _ (List.mem_cons_of_mem _ hev)

/-! ### The future waits -/

/-- The server's task does not clear the table. -/
theorem History.server_task (hside : e.side = .server) (h : History e Allowed s) :
    s.task ≠ .woke := by
  induction h with
  | init => decide
  | event hs ha hev ih =>
    cases hev with
    | clearWoke hclient => cases hside.symm.trans hclient
    | canceled | selected | clearWakePanicked | clearEmptied | clearEmptyPanicked
    | receiverDropped | aborted => simp
    | _ => exact ih

theorem Occurs.started_server (hside : e.side = .server) (hs : History e Allowed s) {a : Action}
    {ev : Event} (h : Occurs e s a ev t) {u : Uuid} {w : Waker}
    (hentry : s.responses.lookup u = some (.started w))
    (hdrop : ∀ g, ev = .dropped g true → g.uuid ≠ u) :
    t.responses.lookup u = some (.started w) := by
  have hlookup := h.lookup u
  rw [hentry] at hlookup
  cases h with
  | sent _ _ _ hnone | replied =>
    rw [hlookup]
    simp only [Event.entry]
    split <;> rfl
  | polled =>
    rw [hlookup, poll_result, Event.entry_polled _ _ _ _ _ (result_ne_mutexError _ _)]
    split <;> rfl
  | @dropped g hlive hlock =>
    rw [hlookup]
    exact if_neg (Ne.symm (hdrop g rfl))
  | delivered _ _ hclient => cases hside.symm.trans hclient
  | clearEmptied htask => exact absurd htask (hs.server_task hside)
  | _ => exact hlookup

theorem History.server_started (hside : e.side = .server) (h : History e Allowed s) {w : Waker}
    {since : List Event} (hpending : PendingSince s.log f w since)
    (hdrop : ∀ g, .dropped g true ∈ since → g.uuid ≠ f.uuid) :
    ∃ w', s.responses.lookup f.uuid = some (.started w') := by
  induction h generalizing since with
  | init =>
    obtain ⟨⟨l, hl⟩, -⟩ := hpending
    simp [State.init] at hl
  | @event s t a ev hs ha hev ih =>
    rw [hev.log] at hpending
    rcases pendingSince_snoc hpending with ⟨rfl, rfl⟩ | ⟨b, rfl, hbefore⟩
    · -- the last poll itself
      have hlookup := hev.lookup f.uuid
      rw [Event.entry_polled _ _ _ _ _ (by decide), if_pos rfl] at hlookup
      obtain ⟨-, -, ⟨-, hr⟩ | ⟨-, hr⟩⟩ := hev.polled_inv
      · cases hr
      · obtain ⟨w', hw'⟩ := poll_pending (w := w) hr.symm
        exact ⟨w', hlookup.trans hw'⟩
    · obtain ⟨w', hw'⟩ := ih hbefore fun g hg => hdrop g (List.mem_append_left _ hg)
      refine ⟨w', hev.started_server hside hs hw' fun g hg => hdrop g ?_⟩
      rw [hg]
      simp

/-- **A waiting future of the server goes on waiting**, unless another future of its uuid is
dropped or the table is poisoned. -/
theorem server_waits (hside : e.side = .server)
    (h : Runs.Reachable (step e) (fun _ _ => True) .init s) {w : Waker} {since : List Event}
    (hpending : PendingSince s.log f w since)
    (hdrop : ∀ g, .dropped g true ∈ since → g.uuid ≠ f.uuid) (hlock : s.lock ≠ .poisoned)
    {w' : Waker} (hpoll : step e s (.poll f w') = some t) :
    t.log = s.log ++ [.polled f w' .pending] := by
  obtain ⟨w₀, hentry⟩ := (history_of_reachable h).server_started hside hpending hdrop
  obtain ⟨ev, hev⟩ := step_event hpoll id
  cases hev with
  | polled hlive hfree =>
    rw [State.record_log, poll_result, hentry]
    rfl
  | pollFailed hlive hpoisoned => exact absurd hpoisoned hlock

/-! ### A reply that is answered -/

def exampleServer : Endpoint := ⟨.server, 16, .generated, .framed⟩

/-- A message is replied to, the reply's future is polled, and the client writes again. -/
def conversation : List Action :=
  [incoming .nil [9], .reply exampleCall (.bytes [1]), .push exampleCall, .ret exampleCall,
    .poll exampleCall 0, incoming .nil [5]]

theorem conversation_due : ∃ s, Runs.Reachable (step exampleServer) (fun _ _ => True) .init s ∧
    Due s exampleCall 0 (incomingLog .nil [5] .handed) := by
  have hview : (Runs.run (step exampleServer) .init conversation).map
      (fun s => (s.log, s.calls exampleCall)) =
      some (incomingLog .nil [9] .handed ++ requestLog exampleCall ++
        .polled exampleCall 0 .pending :: incomingLog .nil [5] .handed, .live) := by
    decide +kernel
  obtain ⟨s, hs, hview⟩ := reachable_of_view _ hview
  obtain ⟨hlog, hlive⟩ := Prod.mk.inj hview
  refine ⟨s, hs, hlive, ⟨⟨_, hlog⟩, fun w' r hmem => ?_⟩, .inl ⟨[5], .handed, ?_⟩⟩
  · simp [incomingLog] at hmem
  · simp [incomingLog, exampleCall]

theorem server_never_resolves_conversation : ∃ s,
    Runs.Reachable (step exampleServer) (fun _ _ => True) .init s ∧
      ¬ Resolves exampleServer s exampleCall 0 (incomingLog .nil [5] .handed) := by
  obtain ⟨s, hs, hdue⟩ := conversation_due
  exact ⟨s, hs, server_never_resolves rfl hs hdue⟩

/-- **The client's answer does not resolve the reply**: it goes to the user, and the future
that `reply` returned is not woken. -/
theorem answered_reply_waits : ¬ ∀ (s : State) (f : Ticket) (w : Waker) (since : List Event),
    Runs.Reachable (step exampleServer) (fun _ _ => True) .init s → Due s f w since →
    Resolves exampleServer s f w since := by
  intro hclaim
  obtain ⟨s, hs, hdue⟩ := conversation_due
  obtain ⟨⟨ev, hev, u, hwakes⟩, -⟩ := hclaim s exampleCall 0 _ hs hdue
  rcases List.mem_pair.mp hev with rfl | rfl <;> exact hwakes

end Wsmq
