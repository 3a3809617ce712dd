import Wsmq.Connection.Replies

/-! Who is woken, and when.

An entry keeps the waker of the first poll that found it `None`; later polls leave it
(`latest_woken_iff`). It is woken when a message completes the entry and by the first
half of `clear`. Nothing else wakes, so a future waits for ever when its waker is not
the one that is stored, when it is polled behind the first half of `clear`, or when
the task is aborted and `clear` is never reached (`ended_woken`, `aborted_woken`). -/
namespace Wsmq

/-- The event wakes `w`, stored under `u`. -/
def Event.wakes (u : Uuid) (w : Waker) : Event → Prop
  | .delivered v _ (.woke w') => v = u ∧ w' = w
  | .clearWoke wakers => (u, w) ∈ wakers
  | _ => False

/-- The waker of the last poll of `f`, when the first of them was with `w`. -/
def latestWaker (f : Ticket) (w : Waker) (events : List Event) : Waker :=
  events.foldl (fun w ev => match ev with
    | .polled g w' _ => if g = f then w' else w
    | _ => w) w

variable {e : Endpoint} {Allowed : State → Action → Prop} {s t : State}

/-! ### The latest waker -/

/-- A waker is stored by the poll of a future that is still there. -/
theorem History.started_polled (h : History e Allowed s) (hlock : s.lock ≠ .poisoned) {u : Uuid}
    {w : Waker} (hentry : s.responses.lookup u = some (.started w)) :
    ∃ g v r, g.uuid = u ∧ s.calls g = .live ∧ .polled g v r ∈ s.log := by
  induction h generalizing w with
  | init => cases hentry
  | @event s t a ev hs ha hev ih =>
    have hbefore : s.lock ≠ .poisoned := fun hp => hlock (hev.poisoned_iff.mpr (.inl hp))
    rw [hev.lookup] at hentry
    -- What was stored before belongs to a future that this event has not dropped.
    have hkept : ∀ {k}, s.responses.lookup u = some (.started k) →
        (∀ g removed, g.uuid = u → ev ≠ .dropped g removed) →
        ∃ g v r, g.uuid = u ∧ t.calls g = .live ∧ .polled g v r ∈ t.log := by
      intro k hstored hdrop
      obtain ⟨g, v, r, hu, hlive, hmem⟩ := ih hbefore hstored
      refine ⟨g, v, r, hu, hev.live_after hlive fun removed => hdrop g removed hu, ?_⟩
      rw [hev.log]
      exact List.mem_append_left _ hmem
    cases hev with
    | polled hlive hfree =>
      rename_i f v
      by_cases hu : f.uuid = u
      · exact ⟨f, v, _, hu, hlive, List.mem_append_right _ (List.mem_singleton_self _)⟩
      · rw [Event.entry_polled, if_neg (Ne.symm hu)] at hentry
        · exact hkept hentry fun g removed _ heq => by cases heq
        · rw [poll_result]
          exact result_ne_mutexError _ _
    | @dropped f hlive hfree =>
      by_cases hu : u = f.uuid
      · cases (if_pos hu).symm.trans hentry
      · refine hkept ((if_neg hu).symm.trans hentry) fun g removed hg heq => ?_
        cases heq
        exact hu hg.symm
    | dropFailed _ hpoisoned => exact absurd hpoisoned hlock
    | sent | replied =>
      refine hkept (k := w) ?_ fun g removed _ heq => by cases heq
      revert hentry
      generalize s.responses.lookup u = entry
      intro hentry
      simp only [Event.entry] at hentry
      split at hentry
      · rcases entry with - | status <;> cases hentry
        rfl
      · exact hentry
    | delivered v x =>
      refine hkept (k := w) ?_ fun g removed _ heq => by cases heq
      rw [onMessage_outcome, Event.entry_delivered] at hentry
      split at hentry
      · revert hentry
        generalize s.responses.lookup u = entry
        rcases entry with - | - | w' | data <;> exact fun hentry => by cases hentry
      · exact hentry
    | clearEmptied => cases hentry
    | _ => exact hkept hentry fun g removed _ heq => by cases heq

/-- **The first poll of a future that is the only one for its uuid** stores its waker, if it has
to wait: the futures that were polled under the uuid before have been dropped. -/
theorem History.sole_entry (h : History e Allowed s) {l₀ l : List Event} {f : Ticket} {w : Waker}
    (hlog : s.log = l₀ ++ .polled f w .pending :: l)
    (hsole : ∀ g v r, .polled g v r ∈ l₀ → g.uuid = f.uuid → ∃ removed, .dropped g removed ∈ l₀) :
    entryAt f.uuid l₀ = some .none := by
  obtain ⟨s₀, a, t₀, hs₀, rfl, -, hoccurs, -⟩ := h.cut hlog
  obtain ⟨-, -, ⟨-, hr⟩ | ⟨hfree, hr⟩⟩ := hoccurs.polled_inv
  · cases hr
  rw [← hs₀.lookup]
  rcases hentry : s₀.responses.lookup f.uuid with - | - | w' | data
  · rw [hentry] at hr
    cases hr
  · rfl
  · obtain ⟨g, v, r, hu, hlive, hmem⟩ := hs₀.started_polled (by rw [hfree]; decide) hentry
    obtain ⟨removed, hdropped⟩ := hsole g v r hmem hu
    exact absurd hdropped (hs₀.undropped hlive removed)
  · rw [hentry] at hr
    cases hr

/-- The poll that finds `None` stores its waker, and it stays. -/
theorem first_waker {l₀ l₁ : List Event} {f : Ticket} {w : Waker}
    (hfirst : entryAt f.uuid l₀ = some .none) (hdrop : Undropped f.uuid l₁)
    (hdeliver : Undelivered f.uuid l₁) (hopen : .clearEmptied ∉ l₁) :
    entryAt f.uuid (l₀ ++ .polled f w .pending :: l₁) = some (.started w) := by
  rw [entryAt_append, hfirst, List.foldl_cons, Event.entry_polled _ _ _ _ _ (by decide), if_pos rfl]
  exact foldl_started hdrop hdeliver hopen rfl

/-- **Who is woken**: the waker of the latest poll is woken by a message or by
`clear` exactly when it is the waker of the first poll, or when another uuid stores it
and `clear` wakes them all. The first poll is the one that finds the entry `None`; of the
only future of a uuid it is the first that waits (`History.sole_entry`). -/
theorem latest_woken_iff (hside : e.side = .client)
    (h : Runs.Reachable (step e) (fun _ _ => True) .init s) {l₀ l₁ l₂ : List Event} {f : Ticket}
    {w : Waker} {ev : Event} (hlog : s.log = l₀ ++ .polled f w .pending :: (l₁ ++ ev :: l₂))
    (hfirst : entryAt f.uuid l₀ = some .none) (hdrop : Undropped f.uuid l₁)
    (hdeliver : Undelivered f.uuid l₁) (hopen : .clearEmptied ∉ l₁)
    (hev : (∃ x outcome, ev = .delivered f.uuid x outcome) ∨ (∃ wakers, ev = .clearWoke wakers) ∨
      ev = .clearPanicked) :
    (∃ u, ev.wakes u (latestWaker f w l₁)) ↔
      (latestWaker f w l₁ = w ∧ ¬ Poisoned (l₀ ++ .polled f w .pending :: l₁)) ∨
      (∃ wakers, ev = .clearWoke wakers) ∧ ∃ v, v ≠ f.uuid ∧
        entryAt v (l₀ ++ .polled f w .pending :: l₁) = some (.started (latestWaker f w l₁)) := by
  have hh := history_of_reachable h
  have hstarted := first_waker (w := w) hfirst hdrop hdeliver hopen
  have hcut : s.log = (l₀ ++ .polled f w .pending :: l₁) ++ ev :: l₂ := by
    rw [hlog]
    simp
  generalize latestWaker f w l₁ = latest
  rcases hev with ⟨x, outcome, rfl⟩ | ⟨wakers, rfl⟩ | rfl
  · rcases hh.delivered hside hcut with ⟨hpoisoned, rfl⟩ | ⟨hpoisoned, houtcome⟩
    · refine iff_of_false (fun ⟨u, hu⟩ => hu) ?_
      intro h
      rcases h with ⟨-, hnot⟩ | ⟨⟨_, hclear⟩, -⟩
      · exact hnot hpoisoned
      · cases hclear
    · rw [hstarted] at houtcome
      subst houtcome
      constructor
      · intro h
        obtain ⟨u, -, rfl⟩ := h
        exact .inl ⟨rfl, hpoisoned⟩
      · intro h
        rcases h with ⟨rfl, -⟩ | ⟨⟨_, hclear⟩, -⟩
        · exact ⟨_, rfl, rfl⟩
        · cases hclear
  · obtain ⟨hpoisoned, hwakers⟩ := hh.clearWoke hcut
    constructor
    · intro h
      obtain ⟨u, hu⟩ := h
      have hentry := (hwakers u latest).mp hu
      by_cases huf : u = f.uuid
      · rw [huf, hstarted] at hentry
        cases hentry
        exact .inl ⟨rfl, hpoisoned⟩
      · exact .inr ⟨⟨_, rfl⟩, u, huf, hentry⟩
    · intro h
      rcases h with ⟨rfl, -⟩ | ⟨-, v, -, hv⟩
      · exact ⟨_, (hwakers _ _).mpr hstarted⟩
      · exact ⟨v, (hwakers v latest).mpr hv⟩
  · refine iff_of_false (fun ⟨u, hu⟩ => hu) ?_
    intro h
    rcases h with ⟨-, hnot⟩ | ⟨⟨_, hclear⟩, -⟩
    · exact hnot (hh.clearPanicked hcut)
    · cases hclear

theorem two_wakers_log : (Runs.run (step exampleClient) .init (request exampleCall ++
      [.poll exampleCall 0, .poll exampleCall 1, incoming .nil [9]])).map State.log =
    some (requestLog exampleCall ++ [.polled exampleCall 0 .pending,
      .polled exampleCall 1 .pending] ++ incomingLog .nil [9] (.woke 0)) := by
  decide +kernel

/-- A reply to the answer that `exampleCall` got. -/
def secondCall : Ticket := ⟨.nil, 1⟩

/-- What a conversation leaves before its second future is polled. -/
def conversationLog : List Event :=
  requestLog exampleCall ++ [.polled exampleCall 0 .pending] ++ incomingLog .nil [9] (.woke 0) ++
    [.polled exampleCall 1 (.readyOk ⟨.nil, [9]⟩), .dropped exampleCall true] ++
    requestLog secondCall

theorem conversation_log : (Runs.run (step exampleClient) .init (request exampleCall ++
      [.poll exampleCall 0, incoming .nil [9], .poll exampleCall 1, .drop exampleCall,
        .reply secondCall (.bytes [1]), .push secondCall, .ret secondCall, .poll secondCall 2,
        .poll secondCall 2, incoming .nil [8]])).map State.log =
    some (conversationLog ++ .polled secondCall 2 .pending ::
      (.polled secondCall 2 .pending :: incomingLog .nil [8] (.woke 2))) := by
  decide +kernel

/-- The second future of a conversation is polled twice with one waker. -/
theorem latest_woken_one_waker : ∃ s,
    Runs.Reachable (step exampleClient) (fun _ _ => True) .init s ∧
    .delivered .nil [8] (.woke 2) ∈ s.log ∧
    ∃ u, (Event.delivered .nil [8] (.woke 2)).wakes u 2 := by
  obtain ⟨s, hs, hlog⟩ := reachable_of_log conversation_log
  have hcut : s.log = conversationLog ++ .polled secondCall 2 .pending ::
      ([.polled secondCall 2 .pending,
        .received (Protobuf.generated.writeToBytes (oneshotFrame .nil [8]))] ++
        .delivered .nil [8] (.woke 2) :: []) := hlog
  have hfirst : entryAt .nil conversationLog = some .none := by
    -- The first future is dropped, the second is the only one.
    refine (history_of_reachable hs).sole_entry hcut fun g v r hmem _ => ⟨true, ?_⟩
    have hg : g = exampleCall := by
      simp [conversationLog, requestLog, incomingLog] at hmem
      rcases hmem with ⟨rfl, -⟩ | ⟨rfl, -⟩ <;> rfl
    rw [hg]
    simp [conversationLog]
  refine ⟨s, hs, by rw [hcut]; simp, (latest_woken_iff rfl hs hcut hfirst
    (fun f b hmem => by simp at hmem) (fun x o hmem => by simp at hmem) (by simp)
    (.inl ⟨_, _, rfl⟩)).mpr (.inl ⟨rfl, ?_⟩)⟩
  rintro ⟨c, hmem⟩
  simp [conversationLog, requestLog, incomingLog] at hmem

/-- **The latest waker is not woken**: the future is polled a second time with another
waker, and the reply wakes the first. -/
theorem second_waker_not_woken : ¬ ∀ (s : State) (l₀ l₁ l₂ : List Event) (f : Ticket) (w : Waker)
    (ev : Event), Runs.Reachable (step exampleClient) (fun _ _ => True) .init s →
    s.log = l₀ ++ .polled f w .pending :: (l₁ ++ ev :: l₂) → Unpolled f.uuid l₀ →
    (∀ d w r, .polled d w r ∈ l₁ → d = f ∧ r = .pending) → Undropped f.uuid l₁ →
    Undelivered f.uuid l₁ → .clearEmptied ∉ l₁ → (∃ x outcome, ev = .delivered f.uuid x outcome) →
    ∃ u, ev.wakes u (latestWaker f w l₁) := by
  intro hclaim
  obtain ⟨s, hs, hlog⟩ := reachable_of_log two_wakers_log
  obtain ⟨u, -, hwoke⟩ := hclaim s (requestLog exampleCall) [.polled exampleCall 1 .pending,
    .received (Protobuf.generated.writeToBytes (oneshotFrame .nil [9]))] [] exampleCall 0
    (.delivered .nil [9] (.woke 0)) hs hlog (fun f w r hmem => by simp [requestLog] at hmem)
    (fun d w r hmem => by simp at hmem; exact ⟨hmem.1, hmem.2.2⟩)
    (fun f b hmem => by simp at hmem) (fun x o hmem => by simp at hmem) (by simp) ⟨_, _, rfl⟩
  cases hwoke

end Wsmq
