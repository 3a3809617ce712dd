import Wsmq.Connection.Replies

/-! Who the entries of the table belong to.

A call makes its entry before it sends. When it succeeds the entry goes over to the
future, whose drop takes it away; when it fails nobody takes it away. So the table has
an owner for every entry as long as every call that makes one goes through
(`table_owned`), and a call that fails leaves what it made (`failed_call_iff`). -/
namespace Wsmq

variable {e : Endpoint} {Allowed : State → Action → Prop} {s t : State}

/-! ### Owners -/

/-- The call has its future, or will have it when no frame is refused. -/
def Stage.Owns : Stage → Prop
  | .live => True
  | .sending rest => rest.result = .ok
  | _ => False

def Owned (s : State) : Prop :=
  ∀ u, s.responses.lookup u ≠ none → ∃ c, c.uuid = u ∧ (s.calls c).Owns

/-- The message can be written, and compressed and cut into chunks where it is too long
to go whole. -/
def Sendable (S : Snap) (bandwidth : UInt64) : Request → Prop
  | .bytes m => bandwidth.toNat < m.length → bandwidth ≠ 0 ∧ S.encode [m] ≠ none
  | .message m => ∃ writes, m.writes = some writes ∧
      (bandwidth.toUInt32 < m.computeSize → bandwidth ≠ 0 ∧ S.encode writes ≠ none)

/-- No frame is refused, the table is not poisoned, and a call that makes an entry can
send its message. -/
def CallsGoThrough (e : Endpoint) (s : State) (a : Action) : Prop :=
  s.lock ≠ .poisoned ∧
    match a with
    | .send _ request => Sendable e.snap e.bandwidth request
    | .reply c request =>
      s.responses.lookup c.uuid = none → Sendable e.snap e.bandwidth request
    | .push _ => s.task ≠ .ended
    | _ => True

theorem sendLargeBytes_ok {bandwidth : UInt64} (hb : bandwidth ≠ 0) (uuid : Uuid) (c : Bytes) :
    (SharedData.sendLargeBytes bandwidth uuid c).result = .ok := by
  rw [sendLargeBytes_eq hb, Sending.result_queueAll]
  rfl

theorem Sendable.result {S : Snap} {bandwidth : UInt64} {request : Request}
    (h : Sendable S bandwidth request) (uuid : Uuid) :
    (request.sending S bandwidth uuid).result = .ok := by
  cases request with
  | bytes m =>
    rw [Request.sending, SharedData.send]
    split
    · rename_i hlong
      obtain ⟨hb, hencode⟩ := h hlong
      obtain ⟨c, hc⟩ := Option.ne_none_iff_exists'.mp hencode
      rw [hc]
      exact sendLargeBytes_ok hb uuid c
    · rfl
  | message m =>
    obtain ⟨writes, hwrites, hlarge⟩ := h
    rw [Request.sending, SharedData.sendMessage, hwrites]
    split
    · rename_i hlong
      obtain ⟨hb, hencode⟩ := hlarge hlong
      obtain ⟨c, hc⟩ := Option.ne_none_iff_exists'.mp hencode
      dsimp only
      rw [hc]
      exact sendLargeBytes_ok hb uuid c
    · rfl

/-! ### One step -/

/-- A key is new only when a call makes it. -/
theorem Occurs.key {a : Action} {ev : Event} (h : Occurs e s a ev t) {u : Uuid}
    (hkey : t.responses.lookup u ≠ none) :
    s.responses.lookup u ≠ none ∨ ∃ c, ev = .opened c ∧ c.uuid = u := by
  rw [h.lookup u] at hkey
  obtain ⟨g, hg, heq⟩ := touch u ev
  rw [heq] at hkey
  cases hg with
  | opened hu => exact .inr ⟨_, rfl, hu.symm⟩
  | polled hu =>
    refine .inl fun hnone => hkey ?_
    rw [hnone]
    rfl
  | dropped hu => exact absurd rfl hkey
  | delivered x outcome =>
    refine .inl fun hnone => hkey ?_
    rw [hnone]
    rfl
  | emptied => exact absurd rfl hkey
  | other => exact .inl hkey

/-- An owner stays one, or its future is dropped and its entry with it. -/
theorem Occurs.owns {a : Action} {ev : Event} (h : Occurs e s a ev t)
    (ha : CallsGoThrough e s a ∨ a.isReceive) {c : Ticket} (hc : (s.calls c).Owns)
    (hkey : t.responses.lookup c.uuid ≠ none) : (t.calls c).Owns := by
  have hlock : ¬ a.isReceive → s.lock ≠ .poisoned := fun hnot =>
    (ha.resolve_right hnot).1
  have hother : ∀ {d : Ticket} {stage : Stage}, (c = d → stage.Owns) →
      ((s.setCall d stage).calls c).Owns := by
    intro d stage hstage
    rw [State.setCall_calls]
    split
    · exact hstage ‹_›
    · exact hc
  cases h with
  | sent hside hidle | unregistered hside hidle | replied hresponse hidle
  | replyFailed hresponse hidle =>
    refine hother fun hcd => ?_
    rw [hcd, hidle] at hc
    exact hc.elim
  | queued hcall hopen =>
    refine hother fun hcd => ?_
    rw [hcd, hcall] at hc
    exact hc
  | refused hcall hclosed => exact absurd hclosed (ha.resolve_right id).2
  | returnedOk hcall => exact hother fun _ => trivial
  | returnedErr hcall | panicked hcall | poisoned hcall =>
    refine hother fun hcd => ?_
    rw [hcd, hcall] at hc
    cases hc
  | @dropped f hlive hfree =>
    refine hother fun hcd => absurd ?_ hkey
    rw [hcd]
    exact (lookup_drop s.responses f.uuid f.uuid).trans (if_pos rfl)
  | dropFailed hlive hpoisoned => exact absurd hpoisoned (hlock id)
  | _ => exact hc

/-- A call that makes an entry owns it. -/
theorem Occurs.owns_opened {a : Action} {c : Ticket} (h : Occurs e s a (.opened c) t)
    (ha : CallsGoThrough e s a ∨ a.isReceive) :
    s.responses.lookup c.uuid ≠ none ∨ (t.calls c).Owns := by
  have hmade : ∀ {request : Request}, Sendable e.snap e.bandwidth request →
      ((s.setCall c (.sending (request.sending e.snap e.bandwidth c.uuid))).calls c).Owns := by
    intro request hsendable
    rw [State.setCall_calls, if_pos rfl]
    exact hsendable.result c.uuid
  cases h with
  | sent hside hidle hlock hnone => exact .inr (hmade (ha.resolve_right id).2)
  | replied hresponse hidle hlock =>
    by_cases hnone : s.responses.lookup c.uuid = none
    · exact .inr (hmade ((ha.resolve_right id).2 hnone))
    · exact .inl hnone

theorem Owned.event {a : Action} {ev : Event} (hs : Owned s)
    (ha : CallsGoThrough e s a ∨ a.isReceive) (h : Occurs e s a ev t) : Owned t := by
  intro u hkey
  have hold : s.responses.lookup u ≠ none → ∃ c, c.uuid = u ∧ (t.calls c).Owns := by
    intro hbefore
    obtain ⟨c, rfl, hc⟩ := hs u hbefore
    exact ⟨c, rfl, h.owns ha hc hkey⟩
  rcases h.key hkey with hbefore | ⟨c, rfl, rfl⟩
  · exact hold hbefore
  · rcases h.owns_opened ha with hbefore | hc
    · exact hold hbefore
    · exact ⟨c, rfl, hc⟩

/-! ### Whole runs -/

/-- A step of the call after its first, or one that closes the queue under it. -/
def Action.OfCall (c : Ticket) : Action → Prop
  | .push d => d = c
  | .ret d => d = c
  | .select => True
  | .dropReceiver => True
  | .abort => True
  | _ => False

theorem Occurs.responses_of_call {c : Ticket} {a : Action} {ev : Event} (ha : a.OfCall c)
    (h : Occurs e s a ev t) : t.responses = s.responses := by
  cases h <;> first | rfl | exact ha.elim

theorem responses_of_calls {c : Ticket} {rest : List Action} (hrest : ∀ a ∈ rest, a.OfCall c)
    (h : Runs.run (step e) s rest = some t) : t.responses = s.responses := by
  apply run_events (P := fun t => t.responses = s.responses) rfl _ h
  intro u a ev v ha hu hev
  exact (hev.responses_of_call (hrest a ha)).trans hu

theorem register_eq_iff (responses : ResponseStatusMap) (u : Uuid) :
    Response.register responses u = responses ↔ responses.lookup u ≠ none := by
  constructor
  · intro h hnone
    have hlookup := lookup_register responses u u
    rw [h, if_pos rfl, hnone] at hlookup
    cases hlookup
  · intro h
    obtain ⟨status, hstatus⟩ := Option.ne_none_iff_exists'.mp h
    rw [Response.register, hstatus]

/-- **What a call that fails leaves**: the table is as it was only when it was poisoned, or
when a reply found its entry there. -/
theorem failed_call_iff {c : Ticket} {request : Request} {opening : Action} {rest : List Action}
    {err : Error} (hopening : opening = .send c request ∨ opening = .reply c request)
    (hrest : ∀ a ∈ rest, a.OfCall c) (hrun : Runs.run (step e) s (opening :: rest) = some t)
    (_ : t.log.getLast? = some (.returned c (.err err))) :
    t.responses = s.responses ↔ s.lock = .poisoned ∨
      (opening = .reply c request ∧ s.responses.lookup c.uuid ≠ none) := by
  obtain ⟨u, hstep, hrest'⟩ := Runs.run_cons (step e) hrun
  rw [responses_of_calls hrest hrest']
  have hcall : ¬ opening.isReceive := by rcases hopening with rfl | rfl <;> exact id
  obtain ⟨ev, hev⟩ := step_event hstep hcall
  rcases hopening with rfl | rfl
  · cases hev with
    | sent hside hidle hlock hnone =>
      refine iff_of_false (fun h => (register_eq_iff _ _).mp h hnone) fun h => ?_
      rcases h with hpoisoned | ⟨hreply, -⟩
      · cases hlock.symm.trans hpoisoned
      · cases hreply
    | unregistered hside hidle hlock hnil => exact iff_of_true rfl (.inl hlock)
  · cases hev with
    | replied hresponse hidle hlock =>
      refine (register_eq_iff _ _).trans ⟨fun h => .inr ⟨rfl, h⟩, fun h => ?_⟩
      rcases h with hpoisoned | ⟨-, hkey⟩
      · cases hlock.symm.trans hpoisoned
      · exact hkey
    | replyFailed hresponse hidle hlock => exact iff_of_true rfl (.inl hlock)

/-- A connection whose queue is closed. -/
def closedState : State := {State.init.record .aborted with task := .ended}

theorem failed_call_closed : ∃ t, Runs.run (step exampleClient) closedState (request exampleCall) =
      some t ∧ (t.responses = closedState.responses ↔ closedState.lock = .poisoned ∨
        (Action.send exampleCall (.bytes [1]) = .reply exampleCall (.bytes [1]) ∧
          closedState.responses.lookup .nil ≠ none)) := by
  have hrest : ∀ a ∈ [Action.push exampleCall, .ret exampleCall], a.OfCall exampleCall := by
    intro a ha
    rcases List.mem_pair.mp ha with rfl | rfl <;> rfl
  have hrun : ∃ t, Runs.run (step exampleClient) closedState (request exampleCall) = some t ∧
      t.log.getLast? = some (.returned exampleCall (.err (.internalError .disconnected))) :=
    ⟨_, rfl, rfl⟩
  obtain ⟨t, ht, hlast⟩ := hrun
  exact ⟨t, ht, failed_call_iff (.inl rfl) hrest ht hlast⟩

/-- **A refused request stays in the table**: the queue is closed, `send` returns an error
and its entry is there afterwards. -/
theorem refused_request_stays : ∃ t, Runs.run (step exampleClient) .init [.abort] =
      some closedState ∧
    Runs.run (step exampleClient) closedState (request exampleCall) = some t ∧
    t.log.getLast? = some (.returned exampleCall (.err (.internalError .disconnected))) ∧
    t.responses ≠ closedState.responses := by
  refine ⟨_, rfl, rfl, rfl, fun h => ?_⟩
  have hlookup := congrArg (Finmap.lookup exampleCall.uuid) h
  rw [show closedState.responses = ∅ from rfl, Finmap.lookup_empty] at hlookup
  revert hlookup
  decide +kernel

end Wsmq
