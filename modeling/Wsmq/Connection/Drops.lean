import Wsmq.Connection.Replies

/-! What the drop of one future does to another.

A future finds its entry by uuid alone, and a conversation keeps its uuid, so two live
futures may share an entry. The drop of either takes it away. `Alike g` is what the
future `g` can tell of a state while it is polled and messages are received; a drop
keeps it exactly when it does not touch the entry of `g` (`drop_harmless_iff`). -/
namespace Wsmq

/-- What the polls of `g` returned. -/
def answers (g : Ticket) (log : List Event) : List Poll :=
  log.filterMap fun
    | .polled f _ result => if f = g then some result else none
    | _ => none

/-- A poll of `g`, or a received message. -/
def Action.OfFuture (g : Ticket) : Action → Prop
  | .poll f _ => f = g
  | .receive _ _ => True
  | _ => False

/-- What `g` can tell of two states. -/
structure Alike (g : Ticket) (s s' : State) : Prop where
  entry : s.responses.lookup g.uuid = s'.responses.lookup g.uuid
  lock : s.lock = s'.lock
  stage : s.calls g = s'.calls g
  contexts : s.contexts = s'.contexts
  task : s.task = s'.task
  answered : answers g s.log = answers g s'.log

variable {e : Endpoint} {s s' t : State} {f g : Ticket}

theorem answers_snoc (log : List Event) (ev : Event) :
    answers g (log ++ [ev]) = answers g log ++ answers g [ev] :=
  List.filterMap_append

theorem Alike.record (h : Alike g s s') (ev : Event) : Alike g (s.record ev) (s'.record ev) :=
  ⟨h.entry, h.lock, h.stage, h.contexts, h.task, by
    rw [State.record_log, State.record_log, answers_snoc, answers_snoc, h.answered]⟩

/-- Two events that are no poll of `g`. -/
theorem Alike.record_other (h : Alike g s s') {ev ev' : Event} (hev : answers g [ev] = [])
    (hev' : answers g [ev'] = []) : Alike g (s.record ev) (s'.record ev') :=
  ⟨h.entry, h.lock, h.stage, h.contexts, h.task, by
    rw [State.record_log, State.record_log, answers_snoc, answers_snoc, h.answered, hev, hev']⟩

/-- The table of the second state under the lock of the first. -/
theorem Alike.responses (h : Alike g s s') {responses responses' : ResponseStatusMap}
    (hentry : responses.lookup g.uuid = responses'.lookup g.uuid) :
    Alike g {s with responses := responses} {s' with responses := responses', lock := s.lock} :=
  ⟨hentry, rfl, h.stage, h.contexts, h.task, h.answered⟩

/-! ### Steps that `g` sees -/

theorem Alike.poll (h : Alike g s s') (w : Waker) :
    Option.Rel (Alike g) (step e s (.poll g w)) (step e s' (.poll g w)) := by
  have hresult : (ResponseFuture.poll s.responses g.uuid w).1 =
      (ResponseFuture.poll s'.responses g.uuid w).1 := by
    rw [poll_result, poll_result, h.entry]
  have hentry : (ResponseFuture.poll s.responses g.uuid w).2.lookup g.uuid =
      (ResponseFuture.poll s'.responses g.uuid w).2.lookup g.uuid := by
    rw [lookup_poll, lookup_poll, h.entry]
  simp only [step]
  rw [← h.stage, ← h.lock]
  split
  · split
    · exact .none
    · rw [hresult]
      exact .some ((h.responses hentry).record _)
    · exact .some (h.record _)
  · exact .none

theorem Alike.handle (h : Alike g s s') (callback : Callback) :
    Option.Rel (Alike g) (handle e s callback) (handle e s' callback) := by
  cases callback with
  | onMessage u x =>
    have hentry : (Client.onMessage s.responses u x).1.lookup g.uuid =
        (Client.onMessage s'.responses u x).1.lookup g.uuid := by
      rw [lookup_onMessage, lookup_onMessage, h.entry]
    simp only [Wsmq.handle]
    rw [← h.lock]
    split
    · exact .some (h.record _)
    · split
      · exact .none
      · exact .some ((h.responses hentry).record_other rfl rfl)
      · exact .some (h.record _)
  | onCallback pctx => exact .some (h.record _)
  | onError err => exact .some (h.record _)
  | onCanceled pctx =>
    simp only [Wsmq.handle]
    split
    · exact .some h
    · have hselected : Alike g {s with task := .selected} {s' with task := .selected} :=
        ⟨h.entry, h.lock, h.stage, h.contexts, rfl, h.answered⟩
      exact .some (hselected.record _)

theorem Alike.receive (h : Alike g s s') (m : WsMessage) (cancels : ProgressContext → Bool) :
    Option.Rel (Alike g) (step e s (.receive m cancels)) (step e s' (.receive m cancels)) := by
  simp only [step]
  by_cases htask : s.task = .running
  · have hstate : Alike g
        {s with contexts := (messageDispatch e.protobuf e.snap cancels s.contexts m.intoData).1}
        {s' with contexts := (messageDispatch e.protobuf e.snap cancels s.contexts m.intoData).1} :=
      ⟨h.entry, h.lock, h.stage, rfl, h.task, h.answered⟩
    rw [if_pos htask, if_pos (h.task ▸ htask), ← h.contexts, ← Runs.run_eq_foldlM,
      ← Runs.run_eq_foldlM]
    exact Runs.run_rel (fun _ _ callback _ hrel => hrel.handle callback) (hstate.record _)
  · rw [if_neg htask, if_neg (h.task ▸ htask)]
    exact .none

theorem Alike.step {a : Action} (h : Alike g s s') (ha : a.OfFuture g) :
    Option.Rel (Alike g) (step e s a) (step e s' a) := by
  cases a with
  | poll f w =>
    cases ha
    exact h.poll w
  | receive m cancels => exact h.receive m cancels
  | _ => exact ha.elim

/-! ### The drop -/

/-- The results of the polls of `g` in a run. -/
def outcomes (e : Endpoint) (g : Ticket) (s : State) (actions : List Action) : Option (List Poll) :=
  (Runs.run (step e) s actions).map fun s => answers g s.log

theorem Occurs.dropped_inv {a : Action} {ev : Event} (h : Occurs e s a ev t) (ha : a = .drop f) :
    s.calls f = .live ∧ t.contexts = s.contexts ∧ t.task = s.task ∧ t.lock = s.lock ∧
      t.calls = Function.update s.calls f .gone ∧ answers g t.log = answers g s.log ∧
      ((s.lock = .free ∧ t.responses = ResponseFuture.drop s.responses f.uuid) ∨
        (s.lock = .poisoned ∧ t.responses = s.responses)) := by
  subst ha
  cases h with
  | dropped hlive hlock =>
    refine ⟨hlive, rfl, rfl, rfl, rfl, ?_, .inl ⟨hlock, rfl⟩⟩
    exact (answers_snoc _ _).trans (List.append_nil _)
  | dropFailed hlive hlock =>
    refine ⟨hlive, rfl, rfl, rfl, rfl, ?_, .inr ⟨hlock, rfl⟩⟩
    exact (answers_snoc _ _).trans (List.append_nil _)

/-- What a poll of a live future with a free table returns is the last of its answers. -/
theorem outcomes_poll (hlive : s.calls g = .live) (hlock : s.lock = .free) :
    outcomes e g s [.poll g 0] =
      some (answers g s.log ++ [Entry.result g.uuid (s.responses.lookup g.uuid)]) := by
  have hstep := occurs_step (e := e) (Occurs.polled (w := 0) hlive hlock) id
  rw [outcomes, Runs.run, hstep]
  show some (answers g (s.log ++ [_])) = _
  rw [answers_snoc, poll_result]
  simp [answers]

/-- A drop that leaves the entry of `g` leaves everything `g` can tell. -/
theorem alike_drop (hne : f ≠ g) {ev : Event} (hev : Occurs e s (.drop f) ev t)
    (h : f.uuid ≠ g.uuid ∨ s.responses.lookup g.uuid = none ∨ s.lock = .poisoned) :
    Alike g s t := by
  obtain ⟨-, hcontexts, htask, hlock, hcalls, hanswers, hresponses⟩ := hev.dropped_inv (g := g) rfl
  have hstage : t.calls g = s.calls g := by
    rw [hcalls, Function.update_of_ne (Ne.symm hne)]
  refine ⟨?_, hlock.symm, hstage.symm, hcontexts.symm, htask.symm, hanswers.symm⟩
  obtain ⟨hfree, heq⟩ | ⟨-, heq⟩ := hresponses
  · rw [heq, lookup_drop]
    split
    · rename_i huuid
      obtain hother | hnone | hpoisoned := h
      · exact absurd huuid.symm hother
      · exact hnone
      · cases hfree.symm.trans hpoisoned
    · rfl
  · rw [heq]

/-- One poll tells of a drop that took the entry: before it there is one, after it none. -/
theorem drop_tells (hne : f ≠ g) (hg : s.calls g = .live) {ev : Event}
    (hev : Occurs e s (.drop f) ev t) (huuid : f.uuid = g.uuid)
    (hkey : s.responses.lookup g.uuid ≠ none) (hlock : s.lock ≠ .poisoned) :
    outcomes e g s [.poll g 0] ≠ outcomes e g t [.poll g 0] := by
  obtain ⟨-, -, -, hsame, hcalls, hanswers, hresponses⟩ := hev.dropped_inv (g := g) rfl
  have hstage : t.calls g = s.calls g := by
    rw [hcalls, Function.update_of_ne (Ne.symm hne)]
  obtain ⟨hfree, heq⟩ := hresponses.resolve_right fun h => hlock h.1
  have hgone : t.responses.lookup g.uuid = none := by
    rw [heq, lookup_drop, if_pos huuid.symm]
  intro hpoll
  rw [outcomes_poll hg hfree, outcomes_poll (hstage.trans hg) (hsame.trans hfree), hanswers,
    hgone] at hpoll
  have hresult := List.cons.inj (List.append_cancel_left (Option.some.inj hpoll))
  obtain ⟨status, hstatus⟩ := Option.ne_none_iff_exists'.mp hkey
  rw [hstatus] at hresult
  cases status <;> cases hresult.1

/-- **The drop of one future is harmless to another** exactly when they do not share an
entry: they have two uuids, or there is no entry, or the table is poisoned. -/
theorem drop_harmless_iff (hne : f ≠ g) (hg : s.calls g = .live)
    (hdrop : step e s (.drop f) = some t) :
    (∀ actions : List Action, (∀ a ∈ actions, a.OfFuture g) →
      outcomes e g s actions = outcomes e g t actions) ↔
      f.uuid ≠ g.uuid ∨ s.responses.lookup g.uuid = none ∨ s.lock = .poisoned := by
  obtain ⟨ev, hev⟩ := step_event hdrop id
  constructor
  · intro h
    by_contra hneg
    obtain ⟨huuid, hrest⟩ := not_or.mp hneg
    obtain ⟨hkey, hpoisoned⟩ := not_or.mp hrest
    apply drop_tells hne hg hev (not_not.mp huuid) hkey hpoisoned
    apply h
    intro a ha
    cases List.mem_singleton.mp ha
    rfl
  · intro h actions hactions
    have hruns : Option.Rel (Alike g) (Runs.run (step e) s actions)
        (Runs.run (step e) t actions) :=
      Runs.run_rel (fun _ _ a ha hrel => hrel.step (hactions a ha)) (alike_drop hne hev h)
    exact Runs.map_eq_of_rel (fun _ _ hrel => hrel.answered) hruns

/-! ### Two replies to one message -/

def firstReply : Ticket := ⟨.nil, 1⟩

def secondReply : Ticket := ⟨.nil, 2⟩

/-- A request is answered, and the answer is replied to twice. -/
def repliedTwice : List Action :=
  request exampleCall ++ [.poll exampleCall 0, incoming .nil [9], .poll exampleCall 0,
    .drop exampleCall, .reply firstReply (.bytes [1]), .push firstReply, .ret firstReply,
    .reply secondReply (.bytes [1]), .push secondReply, .ret secondReply]

theorem repliedTwice_state : ∃ s t, Runs.Reachable (step exampleClient) (fun _ _ => True) .init s ∧
    s.calls firstReply = .live ∧ s.calls secondReply = .live ∧
    step exampleClient s (.drop secondReply) = some t ∧
    outcomes exampleClient firstReply s [.poll firstReply 0, incoming .nil [5], .poll firstReply 0] =
      some [.pending, .readyOk ⟨.nil, [5]⟩] ∧
    outcomes exampleClient firstReply t [.poll firstReply 0, incoming .nil [5], .poll firstReply 0] =
      some [.readyErr .notFound, .readyErr .notFound] := by
  have hview : (Runs.run (step exampleClient) .init repliedTwice).map (fun s =>
      (s.calls firstReply, s.calls secondReply, outcomes exampleClient firstReply s
        [.poll firstReply 0, incoming .nil [5], .poll firstReply 0],
        (step exampleClient s (.drop secondReply)).bind fun t => outcomes exampleClient firstReply t
          [.poll firstReply 0, incoming .nil [5], .poll firstReply 0])) =
      some (.live, .live, some [.pending, .readyOk ⟨.nil, [5]⟩],
        some [.readyErr .notFound, .readyErr .notFound]) := by
    decide +kernel
  obtain ⟨s, hs, hview⟩ := reachable_of_view _ hview
  obtain ⟨hfirst, hrest⟩ := Prod.mk.inj hview
  obtain ⟨hsecond, hrest⟩ := Prod.mk.inj hrest
  obtain ⟨hkept, hdropped⟩ := Prod.mk.inj hrest
  obtain ⟨t, ht, hlost⟩ := Option.bind_eq_some_iff.mp hdropped
  exact ⟨s, t, hs, hfirst, hsecond, ht, hkept, hlost⟩

theorem drop_harmless_repliedTwice : ∃ s t,
    Runs.Reachable (step exampleClient) (fun _ _ => True) .init s ∧
    step exampleClient s (.drop secondReply) = some t ∧
    ((∀ actions : List Action, (∀ a ∈ actions, a.OfFuture firstReply) →
      outcomes exampleClient firstReply s actions = outcomes exampleClient firstReply t actions) ↔
      secondReply.uuid ≠ firstReply.uuid ∨ s.responses.lookup firstReply.uuid = none ∨
        s.lock = .poisoned) := by
  obtain ⟨s, t, hs, hfirst, -, ht, -, -⟩ := repliedTwice_state
  exact ⟨s, t, hs, ht, drop_harmless_iff (by decide) hfirst ht⟩

/-- **A drop takes another future's answer**: two replies to one message share an entry,
and when the second is dropped the first finds nothing, whatever arrives. -/
theorem drop_loses_answer : ¬ ∀ (s t : State) (f g : Ticket) (actions : List Action),
    Runs.Reachable (step exampleClient) (fun _ _ => True) .init s → f ≠ g → s.calls f = .live →
    s.calls g = .live → step exampleClient s (.drop f) = some t →
    (∀ a ∈ actions, a.OfFuture g) →
    outcomes exampleClient g s actions = outcomes exampleClient g t actions := by
  intro hclaim
  obtain ⟨s, t, hs, hfirst, hsecond, ht, hkept, hlost⟩ := repliedTwice_state
  have hactions : ∀ a ∈ [Action.poll firstReply 0, incoming .nil [5], .poll firstReply 0],
      a.OfFuture firstReply := by
    intro a ha
    simp only [List.mem_cons, List.not_mem_nil, or_false] at ha
    rcases ha with rfl | rfl | rfl
    · rfl
    · trivial
    · rfl
  have hsame := hclaim s t secondReply firstReply _ hs (by decide) hsecond hfirst ht hactions
  rw [hkept, hlost] at hsame
  cases Option.some.inj hsame

end Wsmq
