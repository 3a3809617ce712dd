import Wsmq.Connection.History

/-! When the reply to a request reaches the future that waits for it.

A future's entry is `None` until its first poll, `Started` from then on, and
`Completed` when a message finds it `Started`. A message that finds it `None` is
dropped and takes the entry with it, and so does every message after the first. So
the reply reaches the future exactly when it was polled before and nothing more
arrives before it is polled again (`reply_arrives_iff`). -/
namespace Wsmq

/-! ### An entry over a stretch of events -/

def Unpolled (u : Uuid) (events : List Event) : Prop :=
  ∀ f w r, .polled f w r ∈ events → u ≠ f.uuid

def Undropped (u : Uuid) (events : List Event) : Prop :=
  ∀ f removed, .dropped f removed ∈ events → u ≠ f.uuid

def Undelivered (u : Uuid) (events : List Event) : Prop :=
  ∀ x outcome, .delivered u x outcome ∉ events

section
variable {u : Uuid} {events : List Event} {entry : Option Status}

theorem foldl_entry {P : Option Status → Prop} (hentry : P entry)
    (hstep : ∀ ev ∈ events, ∀ g, Touch u ev g → ∀ entry, P entry → P (g entry)) :
    P (events.foldl (Event.entry u) entry) := by
  induction events generalizing entry with
  | nil => exact hentry
  | cons ev rest ih =>
    obtain ⟨g, hg, heq⟩ := touch u ev
    refine ih ?_ fun ev hev => hstep ev (List.mem_cons_of_mem _ hev)
    rw [heq]
    exact hstep ev (List.mem_cons_self ..) g hg entry hentry

/-- Without a poll no entry starts. -/
theorem foldl_not_started (hpoll : Unpolled u events) (hentry : ∀ w, entry ≠ some (.started w)) :
    ∀ w, events.foldl (Event.entry u) entry ≠ some (.started w) := by
  refine foldl_entry (P := fun entry => ∀ w, entry ≠ some (.started w)) hentry
    fun ev hev g hg entry hentry => ?_
  cases hg with
  | opened hu =>
    cases entry with
    | none => exact fun w h => by cases h
    | some status => exact hentry
  | polled hu => exact absurd hu (hpoll _ _ _ hev)
  | dropped hu => exact fun w h => by cases h
  | delivered x outcome => rcases entry with - | - | - | - <;> exact fun w h => by cases h
  | emptied => exact fun w h => by cases h
  | other => exact hentry

/-- Without a poll an entry that has not started stays so. -/
theorem foldl_idle (hpoll : Unpolled u events) (hentry : entry = none ∨ entry = some .none) :
    events.foldl (Event.entry u) entry = none ∨
      events.foldl (Event.entry u) entry = some .none := by
  refine foldl_entry (P := fun entry => entry = none ∨ entry = some .none) hentry
    fun ev hev g hg entry hentry => ?_
  cases hg with
  | opened hu => rcases hentry with rfl | rfl <;> exact .inr rfl
  | polled hu => exact absurd hu (hpoll _ _ _ hev)
  | dropped hu => exact .inl rfl
  | delivered x outcome => rcases hentry with rfl | rfl <;> exact .inl rfl
  | emptied => exact .inl rfl
  | other => exact hentry

theorem foldl_started {w : Waker} (hdrop : Undropped u events) (hdeliver : Undelivered u events)
    (hopen : .clearEmptied ∉ events) (hentry : entry = some (.started w)) :
    events.foldl (Event.entry u) entry = some (.started w) := by
  refine foldl_entry (P := fun entry => entry = some (.started w)) hentry
    fun ev hev g hg entry hentry => ?_
  subst hentry
  cases hg with
  | opened hu => rfl
  | polled hu => rfl
  | dropped hu => exact absurd hu (hdrop _ _ hev)
  | delivered x outcome => exact absurd hev (hdeliver _ _)
  | emptied => exact absurd hev hopen
  | other => rfl

theorem foldl_completed {x : Bytes} (hpoll : Unpolled u events) (hdrop : Undropped u events)
    (hdeliver : Undelivered u events) (hopen : .clearEmptied ∉ events)
    (hentry : entry = some (.completed x)) :
    events.foldl (Event.entry u) entry = some (.completed x) := by
  refine foldl_entry (P := fun entry => entry = some (.completed x)) hentry
    fun ev hev g hg entry hentry => ?_
  subst hentry
  cases hg with
  | opened hu => rfl
  | polled hu => exact absurd hu (hpoll _ _ _ hev)
  | dropped hu => exact absurd hu (hdrop _ _ hev)
  | delivered x outcome => exact absurd hev (hdeliver _ _)
  | emptied => exact absurd hev hopen
  | other => rfl

end

/-! ### The first reply -/

/-- `before` is a log in which call `g` makes the entry of its uuid, and `f` is the
only future of that uuid from then on. It queues its request, waits, and `p` is the
first message for the uuid that is dispatched; `since` then `f` has not been polled. -/
structure Exchange (before : List Event) (g f : Ticket) (asked waited since : List Event)
    (p : Bytes) : Prop where
  log_eq : ∃ made frame outcome, entryAt f.uuid made = none ∧ before = made ++ .opened g ::
    (asked ++ .queued f frame :: (waited ++ .delivered f.uuid p outcome :: since))
  same_uuid : g.uuid = f.uuid
  only : ∀ d w r, .polled d w r ∈ asked ++ waited ++ since → d.uuid = f.uuid → d = f
  undropped : Undropped f.uuid (asked ++ waited ++ since)
  first : Undelivered f.uuid waited
  pending : ∀ w r, .polled f w r ∈ waited → r = .pending
  next : ∀ w r, .polled f w r ∉ since
  not_ended : .clearEmptied ∉ asked ++ waited ++ since

theorem result_idle {u : Uuid} {entry : Option Status} (h : entry = none ∨ entry = some .none)
    (response : Response) : Entry.result u entry ≠ .readyOk response := by
  rcases h with rfl | rfl <;> exact fun h => by cases h

theorem poll_pending {u : Uuid} {w : Waker} {entry : Option Status}
    (h : Entry.result u entry = .pending) : ∃ w', Entry.poll w entry = some (.started w') := by
  rcases entry with - | - | w' | data
  · cases h
  · exact ⟨w, rfl⟩
  · exact ⟨w', rfl⟩
  · cases h

theorem deliver_unstarted {x : Bytes} {entry : Option Status}
    (h : ∀ w, entry ≠ some (.started w)) : Entry.deliver x entry = none := by
  rcases entry with - | - | w | data
  · rfl
  · rfl
  · exact absurd rfl (h w)
  · rfl

variable {e : Endpoint} {Allowed : State → Action → Prop} {s : State}

/-- A message that no poisoned table keeps away does to the entry what `Entry.deliver`
says. -/
theorem History.entry_delivered (hside : e.side = .client) (h : History e Allowed s)
    {l l' : List Event} {u : Uuid} {x : Bytes} {outcome : Outcome}
    (hlog : s.log = l ++ .delivered u x outcome :: l') (hpoisoned : ¬ Poisoned l) :
    Event.entry u (entryAt u l) (.delivered u x outcome) = Entry.deliver x (entryAt u l) := by
  rcases h.delivered hside hlog with ⟨hp, -⟩ | ⟨-, rfl⟩
  · exact absurd hp hpoisoned
  · rw [Event.entry_delivered, if_pos rfl]

theorem Poisoned.mono {l l' : List Event} (h : Poisoned l) (hsub : l ⊆ l') : Poisoned l' :=
  h.imp fun _ hc => hsub hc

section
variable {before rest asked waited since : List Event} {g f : Ticket} {p : Bytes}
  {made : List Event} {frame : Frame} {outcome : Outcome}

theorem Exchange.unpolled (hex : Exchange before g f asked waited since p) :
    Unpolled f.uuid since := by
  intro d w r hd hu
  cases hex.only d w r (by simp [hd]) hu.symm
  exact hex.next w r hd

/-- Up to the wait the entry has not started: `f` did not exist yet. -/
theorem Exchange.asked_idle (hex : Exchange before g f asked waited since p)
    (hmade : entryAt f.uuid made = none) (hpolled : ∀ w r, .polled f w r ∉ asked) :
    entryAt f.uuid (made ++ .opened g :: (asked ++ [.queued f frame])) = none ∨
      entryAt f.uuid (made ++ .opened g :: (asked ++ [.queued f frame])) = some .none := by
  rw [entryAt_append, hmade, List.foldl_cons, List.foldl_append]
  have hopened : Event.entry f.uuid none (.opened g) = some .none := if_pos hex.same_uuid.symm
  rw [hopened]
  have hunpolled : Unpolled f.uuid asked := by
    intro d w r hd hu
    cases hex.only d w r (by simp [hd]) hu.symm
    exact hpolled w r hd
  have hidle := foldl_idle hunpolled (.inr rfl)
  exact hidle

/-- If `f` is polled while it waits, the message finds the entry started. -/
theorem Exchange.waited_started (hex : Exchange before g f asked waited since p)
    (h : History e Allowed s) {l l' : List Event} (hlog : s.log = l ++ (waited ++ l'))
    (hpoisoned : ¬ Poisoned (l ++ waited)) {w : Waker} {r : Poll} (hw : .polled f w r ∈ waited) :
    ∃ w', entryAt f.uuid (l ++ waited) = some (.started w') := by
  obtain ⟨a, b, rfl⟩ := List.append_of_mem hw
  have hr : r = .pending := hex.pending w r hw
  subst hr
  have hpoll : Entry.result f.uuid (entryAt f.uuid (l ++ a)) = .pending := by
    have hcut : s.log = (l ++ a) ++ .polled f w .pending :: (b ++ l') := by
      rw [hlog]
      simp
    rcases h.polled hcut with ⟨hp, -⟩ | ⟨-, hr⟩
    · exact absurd (hp.mono (by simp)) hpoisoned
    · exact hr.symm
  obtain ⟨w', hw'⟩ := poll_pending (w := w) hpoll
  refine ⟨w', ?_⟩
  rw [← List.append_assoc, entryAt_append, List.foldl_cons,
    Event.entry_polled _ _ _ _ _ (by decide), if_pos rfl, hw']
  refine foldl_started (fun d removed hd => hex.undropped d removed (by simp [hd]))
    (fun x outcome hx => hex.first x outcome (by simp [hx])) (fun hc => hex.not_ended ?_) rfl
  simp [hc]

/-- After the message only an untouched `Completed` entry still holds it. -/
theorem Exchange.since_result (hex : Exchange before g f asked waited since p)
    (hside : e.side = .client) (h : History e Allowed s) {l l' : List Event}
    (hlog : s.log = l ++ (since ++ l')) (hpoisoned : ¬ Poisoned (l ++ since))
    (hentry : ∀ w, entryAt f.uuid l ≠ some (.started w)) {x : Bytes} {o : Outcome}
    (hx : .delivered f.uuid x o ∈ since) :
    ∀ response, Entry.result f.uuid (entryAt f.uuid (l ++ since)) ≠ .readyOk response := by
  have hpoll : Unpolled f.uuid since := hex.unpolled
  obtain ⟨a, b, rfl⟩ := List.append_of_mem hx
  have hcut : s.log = (l ++ a) ++ .delivered f.uuid x o :: (b ++ l') := by
    rw [hlog]
    simp
  have hunstarted : ∀ w, entryAt f.uuid (l ++ a) ≠ some (.started w) := by
    rw [entryAt_append]
    exact foldl_not_started (fun d w r hd => hpoll d w r (by simp [hd])) hentry
  refine fun response => result_idle ?_ response
  rw [← List.append_assoc, entryAt_append, List.foldl_cons,
    h.entry_delivered hside hcut fun hp => hpoisoned (hp.mono (by simp)),
    deliver_unstarted hunstarted]
  exact foldl_idle (fun d w r hd => hpoll d w r (by simp [hd])) (.inl rfl)

/-- The stretches of an exchange: up to the request, the wait, the message, and the
time since, which starts from what the message made of the entry. -/
theorem Exchange.stretches (hex : Exchange before g f asked waited since p)
    (hside : e.side = .client) (h : History e Allowed s) {rest : List Event}
    (hlog : s.log = before ++ rest) (hpoisoned : ¬ Poisoned before) :
    ∃ asking outcome, before = asking ++ waited ++ .delivered f.uuid p outcome :: since ∧
      (entryAt f.uuid asking = none ∨ entryAt f.uuid asking = some .none) ∧
      entryAt f.uuid (asking ++ waited ++ [.delivered f.uuid p outcome]) =
        Entry.deliver p (entryAt f.uuid (asking ++ waited)) := by
  obtain ⟨made, frame, outcome, hmade, hbefore⟩ := hex.log_eq
  have hsplit : before = made ++ .opened g :: (asked ++ [.queued f frame]) ++ waited ++
      .delivered f.uuid p outcome :: since := by
    rw [hbefore]
    simp
  refine ⟨_, outcome, hsplit, hex.asked_idle hmade fun w r hmem => ?_, ?_⟩
  · have hcut : s.log = (made ++ .opened g :: asked) ++ .queued f frame ::
        (waited ++ .delivered f.uuid p outcome :: (since ++ rest)) := by
      rw [hlog, hbefore]
      simp
    exact h.queued hcut (List.mem_append_right _ (List.mem_cons_of_mem _ hmem))
  · have hcut : s.log = made ++ .opened g :: (asked ++ [.queued f frame]) ++ waited ++
        .delivered f.uuid p outcome :: (since ++ rest) := by
      rw [hlog, hsplit]
      simp
    have hwaitedNot : ¬ Poisoned (made ++ .opened g :: (asked ++ [.queued f frame]) ++ waited) := by
      intro hp
      rw [hsplit] at hpoisoned
      exact hpoisoned (hp.mono (List.subset_append_left _ _))
    rw [entryAt_append]
    exact h.entry_delivered hside hcut hwaitedNot

end

/-- **Exactly when the reply arrives**: the future was polled before the message
came, no other message came before it is polled next, and the table was not
poisoned. -/
theorem reply_arrives_iff (hside : e.side = .client)
    (h : Runs.Reachable (step e) (fun _ _ => True) .init s) {before rest : List Event}
    {g f : Ticket} {w : Waker} {r : Poll} (hlog : s.log = before ++ .polled f w r :: rest)
    {asked waited since : List Event} {p : Bytes} (hex : Exchange before g f asked waited since p) :
    r = .readyOk ⟨f.uuid, p⟩ ↔ (∃ w' r', .polled f w' r' ∈ waited) ∧
      Undelivered f.uuid since ∧ ¬ Poisoned before := by
  have hh := history_of_reachable h
  rcases hh.polled hlog with ⟨hpoisoned, hr⟩ | ⟨hpoisoned, hr⟩
  · rw [hr]
    exact ⟨fun h => (by cases h), fun ⟨_, _, hnot⟩ => absurd hpoisoned hnot⟩
  obtain ⟨asking, outcome, hsplit, hidle, hmessage⟩ := hex.stretches hside hh hlog hpoisoned
  have hpoll : Unpolled f.uuid since := hex.unpolled
  have hsince : entryAt f.uuid before = since.foldl (Event.entry f.uuid)
      (Entry.deliver p (entryAt f.uuid (asking ++ waited))) := by
    rw [← hmessage, ← entryAt_append, hsplit]
    simp
  rw [hr]
  by_cases hwaited : ∃ w' r', .polled f w' r' ∈ waited
  · obtain ⟨w₀, r₀, hw₀⟩ := hwaited
    have hcut : s.log = asking ++ (waited ++ .delivered f.uuid p outcome ::
        (since ++ .polled f w r :: rest)) := by
      rw [hlog, hsplit]
      simp
    obtain ⟨w', hstarted⟩ := hex.waited_started hh hcut
      (fun hp => hpoisoned (hp.mono (by simp [hsplit]))) hw₀
    by_cases hmore : Undelivered f.uuid since
    · refine iff_of_true ?_ ⟨⟨w₀, r₀, hw₀⟩, hmore, hpoisoned⟩
      have hkept : since.foldl (Event.entry f.uuid)
          (Entry.deliver p (some (.started w'))) = some (.completed p) :=
        foldl_completed hpoll (fun d removed hd => hex.undropped d removed (by simp [hd])) hmore
          (fun hc => hex.not_ended (by simp [hc])) rfl
      rw [hsince, hstarted, hkept]
      rfl
    · refine iff_of_false ?_ fun ⟨_, hnone, _⟩ => hmore hnone
      simp only [Undelivered, not_forall, not_not] at hmore
      obtain ⟨x, o, hx⟩ := hmore
      have hafter : s.log = asking ++ waited ++ [.delivered f.uuid p outcome] ++
          (since ++ .polled f w r :: rest) := by
        rw [hlog, hsplit]
        simp
      have hnext := hex.since_result hside hh hafter
        (fun hp => hpoisoned (hp.mono (by simp [hsplit])))
        (fun w h => by rw [hmessage, hstarted] at h; cases h) hx
      rw [hsplit, List.append_cons]
      exact hnext _
  · refine iff_of_false ?_ fun ⟨hex, _⟩ => hwaited hex
    have hunpolled : Unpolled f.uuid waited := by
      intro d w r hd hu
      cases hex.only d w r (by simp [hd]) hu.symm
      exact hwaited ⟨w, r, hd⟩
    have hwaiting := foldl_idle hunpolled hidle
    rw [← entryAt_append] at hwaiting
    rw [hsince]
    refine result_idle (foldl_idle hpoll (.inl ?_)) _
    rcases hwaiting with hw | hw <;> rw [hw] <;> rfl

/-- A client with a small bandwidth, a request it makes, and a reply it receives. -/
def exampleClient : Endpoint := ⟨.client, 16, .generated, .framed⟩

def request (c : Ticket) : List Action := [.send c (.bytes [1]), .push c, .ret c]

def incoming (u : Uuid) (x : Bytes) : Action :=
  .receive (.binary (Protobuf.generated.writeToBytes (oneshotFrame u x))) fun _ => false

def exampleCall : Ticket := ⟨.nil, 0⟩

/-- What a request and its reply leave in the log. -/
def requestLog (c : Ticket) : List Event :=
  [.opened c, .queued c (oneshotFrame c.uuid [1]), .returned c .ok]

def incomingLog (u : Uuid) (x : Bytes) (outcome : Outcome) : List Event :=
  [.received (Protobuf.generated.writeToBytes (oneshotFrame u x)), .delivered u x outcome]

theorem polled_first_log : (Runs.run (step exampleClient) .init (request exampleCall ++
      [.poll exampleCall 0, incoming .nil [9], .poll exampleCall 1])).map State.log =
    some (requestLog exampleCall ++ [.polled exampleCall 0 .pending] ++
      incomingLog .nil [9] (.woke 0) ++ [.polled exampleCall 1 (.readyOk ⟨.nil, [9]⟩)]) := by
  decide +kernel

theorem unpolled_log : (Runs.run (step exampleClient) .init (request exampleCall ++
      [incoming .nil [9], .poll exampleCall 1])).map State.log =
    some (requestLog exampleCall ++ incomingLog .nil [9] .discarded ++
      [.polled exampleCall 1 (.readyErr .notFound)]) := by
  decide +kernel

/-- The future of `exampleCall` alone, with one reply. -/
theorem example_exchange (waited : List Event) (outcome : Outcome)
    (hfirst : ∀ ev ∈ waited, ∀ x o, ev ≠ .delivered .nil x o)
    (hpending : ∀ w r, .polled exampleCall w r ∈ waited → r = .pending)
    (honly : ∀ ev ∈ waited, ∀ d w r, ev = .polled d w r → d = exampleCall)
    (hdrop : ∀ ev ∈ waited, ∀ d b, ev ≠ .dropped d b) (hopen : .clearEmptied ∉ waited) :
    Exchange (.opened exampleCall :: .queued exampleCall (oneshotFrame .nil [1]) ::
      (waited ++ [.delivered .nil [9] outcome])) exampleCall exampleCall [] waited [] [9] where
  log_eq := ⟨[], _, outcome, rfl, rfl⟩
  same_uuid := rfl
  only := fun d w r hd _ => honly _ (by simpa using hd) d w r rfl
  undropped := fun d removed hd => absurd rfl (hdrop _ (by simpa using hd) d removed)
  first := fun x o hx => hfirst _ hx x o rfl
  pending := hpending
  next := fun w r => List.not_mem_nil
  not_ended := by simpa using hopen

def polledFirst : List Event := [.returned exampleCall .ok, .polled exampleCall 0 .pending,
  .received (Protobuf.generated.writeToBytes (oneshotFrame .nil [9]))]

theorem reply_arrives_polled : ∃ s, Runs.Reachable (step exampleClient) (fun _ _ => True) .init s ∧
    ∃ before, s.log = before ++ [.polled exampleCall 1 (.readyOk ⟨.nil, [9]⟩)] ∧
      (Poll.readyOk ⟨.nil, [9]⟩ = .readyOk ⟨exampleCall.uuid, [9]⟩ ↔
        (∃ w' r', .polled exampleCall w' r' ∈ polledFirst) ∧
        Undelivered exampleCall.uuid [] ∧ ¬ Poisoned before) := by
  obtain ⟨s, hs, hlog⟩ := reachable_of_log polled_first_log
  refine ⟨s, hs, _, hlog, reply_arrives_iff rfl hs hlog (example_exchange polledFirst (.woke 0)
    ?_ ?_ ?_ ?_ ?_)⟩ <;> simp [polledFirst]

/-- **A reply is lost**: it comes before the future's first poll. -/
theorem unpolled_reply_lost : ¬ ∀ (s : State) (before rest : List Event) (g f : Ticket) (w : Waker)
    (r : Poll) (asked waited since : List Event) (p : Bytes),
    Runs.Reachable (step exampleClient) (fun _ _ => True) .init s →
    s.log = before ++ .polled f w r :: rest → Exchange before g f asked waited since p →
    r = .readyOk ⟨f.uuid, p⟩ := by
  intro hclaim
  obtain ⟨s, hs, hlog⟩ := reachable_of_log unpolled_log
  have hex := example_exchange [.returned exampleCall .ok,
    .received (Protobuf.generated.writeToBytes (oneshotFrame .nil [9]))] .discarded
    (by simp) (by simp) (by simp) (by simp) (by simp)
  cases hclaim s _ [] _ _ 1 (.readyErr .notFound) _ _ _ _ hs hlog hex

end Wsmq
