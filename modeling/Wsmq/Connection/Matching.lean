import Wsmq.Connection.Wakeups

/-! Which message each answer is.

A poll that finds `Completed` takes the message and leaves an empty one behind, and
`reply` keeps whatever entry it finds. So an answer can be nobody's message: a second
poll of the uuid finds the emptied entry, and a future made over an entry that was
completed before finds an older message. When no poll meets such an entry
(`Untaken`), every answer is a message of its own, dispatched for the uuid of the
future after the future was made (`answers_matched`). A client whose calls each have
their uuid to themselves, and that polls no future again after its answer, never meets
one (`untaken_of_alone`). -/
namespace Wsmq

/-- The answers of a log are dispatched messages, each its own: same uuid, same
bytes, dispatched after the future was made and before the poll. -/
def Matched (log : List Event) : Prop :=
  ∃ m : Nat → Nat,
    (∀ i f w r, log[i]? = some (.polled f w (.readyOk r)) → r.uuid = f.uuid ∧ m i < i ∧
      (∃ outcome, log[m i]? = some (.delivered f.uuid r.data outcome)) ∧
      ∃ k < m i, log[k]? = some (.returned f .ok)) ∧
    ∀ i j f g w v r q, log[i]? = some (.polled f w (.readyOk r)) →
      log[j]? = some (.polled g v (.readyOk q)) → m i = m j → i = j

/-- No answer for `u`. -/
def Unanswered (u : Uuid) (events : List Event) : Prop :=
  ∀ f w r, .polled f w (.readyOk r) ∈ events → f.uuid ≠ u

/-- A poll that finds a completed entry comes first after the last message for the
uuid, and its future was there before that message. -/
def Untaken (s : State) : Action → Prop
  | .poll f _ => s.lock = .free → (∃ data, s.responses.lookup f.uuid = some (.completed data)) →
    ∀ l x w l', s.log = l ++ .delivered f.uuid x (.woke w) :: l' → Undelivered f.uuid l' →
      .returned f .ok ∈ l ∧ Unanswered f.uuid l'
  | _ => True

variable {e : Endpoint} {Allowed : State → Action → Prop} {s t : State}

theorem split_of_getElem? {log : List Event} {i : Nat} {ev : Event} (h : log[i]? = some ev) :
    ∃ l', log = log.take i ++ ev :: l' ∧ (log.take i).length = i := by
  obtain ⟨hi, rfl⟩ := List.getElem?_eq_some_iff.mp h
  refine ⟨log.drop (i + 1), ?_, by rw [List.length_take]; omega⟩
  rw [← List.drop_eq_getElem_cons hi, List.take_append_drop]

theorem getElem?_split {l l' : List Event} {ev : Event} : (l ++ ev :: l')[l.length]? = some ev := by
  simp

/-- A completed entry comes from a message, the last for its uuid. -/
theorem History.completed (hside : e.side = .client)
    (h : History e Allowed s) (hpoisoned : ¬ Poisoned s.log) {u : Uuid} {data : Bytes}
    (hentry : entryAt u s.log = some (.completed data)) :
    ∃ l x w l', s.log = l ++ .delivered u x (.woke w) :: l' ∧ Undelivered u l' := by
  induction h generalizing data with
  | init => cases hentry
  | @event s t a ev hs ha hev ih =>
    rw [hev.log] at hentry hpoisoned ⊢
    rw [entryAt_append, List.foldl_cons, List.foldl_nil] at hentry
    have hbefore : ¬ Poisoned s.log := fun hp => hpoisoned (hp.mono (by simp))
    by_cases hmessage : ∃ x outcome, ev = .delivered u x outcome
    · obtain ⟨x, outcome, rfl⟩ := hmessage
      rcases hev.delivered_inv hside with ⟨hlock, -⟩ | ⟨-, rfl⟩
      · exact absurd (hs.poisoned_iff.mp hlock) hbefore
      · rw [Event.entry_delivered, if_pos rfl] at hentry
        rw [hs.lookup]
        revert hentry
        generalize entryAt u s.log = entry
        intro hentry
        rcases entry with - | - | w | data'
        · cases hentry
        · cases hentry
        · exact ⟨s.log, x, w, [], rfl, fun _ _ => List.not_mem_nil⟩
        · cases hentry
    · obtain ⟨data', hdata'⟩ : ∃ data', entryAt u s.log = some (.completed data') := by
        obtain ⟨g, hg, heq⟩ := touch u ev
        rw [heq] at hentry
        revert hentry
        generalize entryAt u s.log = entry
        intro hentry
        cases hg with
        | delivered x outcome => exact absurd ⟨x, outcome, rfl⟩ hmessage
        | dropped | emptied => cases hentry
        | other => exact ⟨data, hentry⟩
        | opened | polled =>
          rcases entry with - | - | w | data' <;> cases hentry
          exact ⟨_, rfl⟩
      obtain ⟨l, x, w, l', hlog, hlast⟩ := ih hbefore hdata'
      refine ⟨l, x, w, l' ++ [ev], by rw [hlog]; simp, fun y outcome hmem => ?_⟩
      rcases List.mem_append.mp hmem with hmem | hmem
      · exact hlast y outcome hmem
      · exact hmessage ⟨y, outcome, (List.mem_singleton.mp hmem).symm⟩

/-- A message that nobody has taken is the one the entry holds. -/
theorem History.completed_eq (hside : e.side = .client)
    (h : History e Allowed s) {l l' : List Event} {u : Uuid} {x : Bytes} {w : Waker}
    (hlog : s.log = l ++ .delivered u x (.woke w) :: l') (hanswer : Unanswered u l')
    (hdeliver : Undelivered u l') :
    ∀ data, entryAt u s.log = some (.completed data) → data = x := by
  rw [hlog, List.append_cons]
  refine entryAt_stretch (P := fun entry => ∀ data, entry = some (.completed data) → data = x)
    ?_ fun b ev c hb hprev => ?_
  · intro data hdata
    rcases h.delivered hside hlog with ⟨-, hw⟩ | ⟨-, hw⟩
    · cases hw
    · rw [entryAt_append, outcome_woke hw.symm] at hdata
      have hcompleted : Event.entry u (some (.started w)) (.delivered u x (.woke w)) =
          some (.completed x) := if_pos rfl
      cases hcompleted.symm.trans hdata
      rfl
  · have hcut : s.log = (l ++ [.delivered u x (.woke w)] ++ b) ++ ev :: c := by
      rw [hlog, hb]
      simp
    obtain ⟨g, hg, heq⟩ := touch u ev
    rw [heq]
    revert hprev
    generalize hentry : entryAt u (l ++ [.delivered u x (.woke w)] ++ b) = entry
    intro hprev
    cases hg with
    | opened hu =>
      cases entry with
      | none => exact fun data h => by cases h
      | some status => exact hprev
    | @polled f v r hu =>
      -- A poll that would empty the entry is an answer.
      rcases entry with - | - | w' | data'
      · exact fun data h => by cases h
      · exact fun data h => by cases h
      · exact fun data h => by cases h
      · subst hu
        rcases h.polled hcut with ⟨-, hr⟩ | ⟨-, hr⟩
        · subst hr
          exact fun data h => hprev data ((heq _).trans h)
        · rw [hentry] at hr
          have hmem : .polled f v (.readyOk ⟨f.uuid, data'⟩) ∈ l' := by
            rw [hb, hr]
            simp [Entry.result]
          exact absurd rfl (hanswer _ _ _ hmem)
    | dropped hu => exact fun data h => by cases h
    | delivered y outcome => exact absurd (by rw [hb]; simp) (hdeliver y outcome)
    | emptied => exact fun data h => by cases h
    | other => exact hprev

/-! ### Calls that have their uuid to themselves -/

/-- The calls that the uuid of a new call had before are over. -/
def Alone (s : State) : Action → Prop
  | .send c _ | .reply c _ => ∀ d ∈ openedCalls s.log, d.uuid = c.uuid → s.calls d = .gone
  | _ => True

instance (s : State) (a : Action) : Decidable (Alone s a) :=
  match a with
  | .send c _ | .reply c _ =>
    inferInstanceAs (Decidable (∀ d ∈ openedCalls s.log, d.uuid = c.uuid → s.calls d = .gone))
  | .push _ | .ret _ | .poll _ _ | .drop _ | .receive _ _ | .select | .clearWake | .clearEmpty
  | .dropReceiver | .abort => inferInstanceAs (Decidable True)

/-- The second event polls the future that the first found ready. -/
def Event.pollsAgain : Event → Event → Bool
  | .polled f _ r, .polled g _ _ => f = g && r ≠ .pending
  | _, _ => false

/-- No future is polled again after it returned `Ready`. -/
def PolledOnce (log : List Event) : Prop := log.Pairwise fun ev ev' => ¬ ev.pollsAgain ev'

theorem Occurs.opened_alone {a : Action} {c : Ticket} (h : Occurs e s a (.opened c) t)
    (ha : Alone s a ∨ a.isReceive) {d : Ticket} (hd : .opened d ∈ s.log) (hu : d.uuid = c.uuid) :
    s.calls d = .gone := by
  cases h with
  | sent | replied => exact ha.resolve_right id d (mem_openedCalls.mpr hd) hu

/-- A call that is over stays so. -/
theorem Occurs.gone {a : Action} {ev : Event} (h : Occurs e s a ev t) {c : Ticket}
    (hgone : s.calls c = .gone) : t.calls c = .gone := by
  have hle := h.rank_le c
  rw [hgone] at hle
  cases hstage : t.calls c with
  | gone => rfl
  | _ => simp [hstage, Stage.rank] at hle

/-- Two calls of one uuid that are not over are one. -/
theorem History.sole (h : History e Alone s) {c d : Ticket} (hc : .opened c ∈ s.log)
    (hd : .opened d ∈ s.log) (hu : c.uuid = d.uuid) (hcalls : s.calls c ≠ .gone)
    (hcalls' : s.calls d ≠ .gone) : c = d := by
  induction h with
  | init => cases hc
  | @event s t a ev hs ha hev ih =>
    have hover : ∀ {c : Ticket}, t.calls c ≠ .gone → s.calls c ≠ .gone :=
      fun hnot hgone => hnot (hev.gone hgone)
    rw [hev.log] at hc hd
    rcases List.mem_append.mp hc with hold | hnew
    · rcases List.mem_append.mp hd with hold' | hnew'
      · exact ih hold hold' (hover hcalls) (hover hcalls')
      · cases List.mem_singleton.mp hnew'
        exact absurd (hev.opened_alone ha hold hu) (hover hcalls)
    · cases List.mem_singleton.mp hnew
      rcases List.mem_append.mp hd with hold' | hnew'
      · exact absurd (hev.opened_alone ha hold' hu.symm) (hover hcalls')
      · cases List.mem_singleton.mp hnew'
        rfl

/-- A future is live when its call returns it. -/
theorem Occurs.live_inv {a : Action} {ev : Event} (h : Occurs e s a ev t) {f : Ticket}
    (hlive : t.calls f = .live) : s.calls f = .live ∨ ev = .returned f .ok := by
  have hother : ∀ {d : Ticket} {stage : Stage}, stage ≠ .live →
      (s.setCall d stage).calls f = .live → s.calls f = .live := by
    intro d stage hstage hcall
    rw [State.setCall_calls] at hcall
    split at hcall
    · exact absurd hcall hstage
    · exact hcall
  cases h with
  | returnedOk hcall =>
    rename_i c
    by_cases hfc : f = c
    · exact .inr (by rw [hfc])
    · exact .inl ((if_neg hfc).symm.trans ((State.setCall_calls ..).symm.trans hlive))
  | sent | unregistered | replied | replyFailed | queued | refused | returnedErr | panicked
  | poisoned | dropped | dropFailed => exact .inl (hother (by simp) hlive)
  | _ => exact .inl hlive

theorem History.live_returned (h : History e Allowed s) {f : Ticket} (hlive : s.calls f = .live) :
    .returned f .ok ∈ s.log := by
  induction h with
  | init => cases hlive
  | event hs ha hev ih =>
    rw [hev.log]
    rcases hev.live_inv hlive with hbefore | rfl
    · exact List.mem_append_left _ (ih hbefore)
    · exact List.mem_append_right _ (List.mem_singleton_self _)

/-- A future that was polled is live until it is dropped. -/
theorem History.polled_live (h : History e Allowed s) {f : Ticket} {w : Waker} {r : Poll}
    (hpolled : .polled f w r ∈ s.log) (hdrop : ∀ removed, .dropped f removed ∉ s.log) :
    s.calls f = .live := by
  induction h with
  | init => cases hpolled
  | @event s t a ev hs ha hev ih =>
    rw [hev.log] at hpolled hdrop
    have hlive : s.calls f = .live := by
      rcases List.mem_append.mp hpolled with hpolled | hpolled
      · exact ih hpolled fun removed hmem => hdrop removed (List.mem_append_left _ hmem)
      · cases List.mem_singleton.mp hpolled
        exact hev.polled_inv.2.1
    refine hev.live_after hlive fun removed heq => hdrop removed ?_
    rw [heq]
    exact List.mem_append_right _ (List.mem_singleton_self _)

/-- Without a message no entry is completed. -/
theorem foldl_not_completed {u : Uuid} {events : List Event} {entry : Option Status}
    (hdeliver : Undelivered u events) (hentry : ∀ data, entry ≠ some (.completed data)) :
    ∀ data, events.foldl (Event.entry u) entry ≠ some (.completed data) := by
  refine foldl_entry (P := fun entry => ∀ data, entry ≠ some (.completed data)) hentry
    fun ev hev g hg entry hentry => ?_
  cases hg with
  | opened hu =>
    cases entry with
    | none => exact fun data h => by cases h
    | some status => exact hentry
  | polled hu =>
    rcases entry with - | - | w | data
    · exact fun data h => by cases h
    · exact fun data h => by cases h
    · exact fun data h => by cases h
    · exact absurd rfl (hentry data)
  | dropped hu => exact fun data h => by cases h
  | delivered x outcome => exact absurd hev (hdeliver x outcome)
  | emptied => exact fun data h => by cases h
  | other => exact hentry

/-- While an entry is completed no future of its uuid has been dropped since its message. -/
theorem History.completed_undropped (h : History e Allowed s) (hlock : s.lock ≠ .poisoned)
    {u : Uuid} {data : Bytes} (hentry : s.responses.lookup u = some (.completed data))
    {l l' : List Event} (hlog : s.log = l ++ l') (hlast : Undelivered u l') {g : Ticket}
    (hu : g.uuid = u) (removed : Bool) : .dropped g removed ∉ l' := by
  intro hmem
  obtain ⟨b, c, rfl⟩ := List.append_of_mem hmem
  have hcut : s.log = (l ++ b) ++ .dropped g removed :: c := by
    rw [hlog]
    simp
  obtain ⟨s₀, a, t₀, hs₀, hs₀log, -, hoccurs, ht₀⟩ := h.cut hcut
  cases hoccurs with
  | dropped =>
    rw [h.lookup, hcut, entryAt_append, List.foldl_cons] at hentry
    have hgone : Event.entry u (entryAt u (l ++ b)) (.dropped g true) = none := if_pos hu.symm
    rw [hgone] at hentry
    exact foldl_not_completed (fun x outcome hx => hlast x outcome (by simp [hx]))
      (fun data h => by cases h) data hentry
  | dropFailed hlive hpoisoned =>
    refine hlock (h.poisoned_iff.mpr ?_)
    refine (hs₀.poisoned_iff.mp hpoisoned).mono ?_
    rw [hs₀log, hcut]
    exact List.subset_append_left _ _

/-- The poll of a future whose uuid is its own, and that has no answer yet. -/
theorem History.untaken (hside : e.side = .client) (h : History e Alone s) {f : Ticket}
    (hlive : s.calls f = .live) (honce : ∀ v q, .polled f v (.readyOk q) ∉ s.log) (w : Waker) :
    Untaken s (.poll f w) := by
  rintro hfree ⟨data, hcompleted⟩ l x v l' hlog hlast
  have hlock : s.lock ≠ .poisoned := by
    rw [hfree]
    decide
  have hcut : s.log = (l ++ [.delivered f.uuid x (.woke v)]) ++ l' := by
    rw [hlog]
    simp
  -- A future of the uuid that was polled is `f`, unless it was dropped before the message.
  have hsole : ∀ {g v r}, .polled g v r ∈ s.log → g.uuid = f.uuid →
      (∀ removed, .dropped g removed ∉ l) → g = f := by
    intro g v r hpolled hu hdrop
    have hglive : s.calls g = .live := by
      refine h.polled_live hpolled fun removed hmem => ?_
      rw [hlog] at hmem
      rcases List.mem_append.mp hmem with hmem | hmem
      · exact hdrop removed hmem
      · rcases List.mem_cons.mp hmem with heq | hmem
        · cases heq
        · exact h.completed_undropped hlock hcompleted hcut hlast hu removed hmem
    exact h.sole (h.begun_opened hlock (by simp [hglive])) (h.begun_opened hlock (by simp [hlive]))
      hu (by simp [hglive]) (by simp [hlive])
  constructor
  · obtain ⟨s₀, a, t₀, hs₀, rfl, -, hoccurs, -⟩ := h.cut hlog
    rcases hoccurs.delivered_inv hside with ⟨-, hw⟩ | ⟨hfree₀, hw⟩
    · cases hw
    have hlock₀ : s₀.lock ≠ .poisoned := by
      rw [hfree₀]
      decide
    obtain ⟨g, v', r, hu, hglive, hpolled⟩ := hs₀.started_polled hlock₀ (outcome_woke hw.symm)
    obtain rfl := hsole (by rw [hlog]; exact List.mem_append_left _ hpolled) hu
      (hs₀.undropped hglive)
    exact hs₀.live_returned hglive
  · intro g v' q hmem hu
    obtain ⟨b, c, rfl⟩ := List.append_of_mem hmem
    have hpolled : s.log = (l ++ .delivered f.uuid x (.woke v) :: b) ++
        .polled g v' (.readyOk q) :: c := by
      rw [hlog]
      simp
    obtain ⟨s₁, a, t₁, hs₁, hs₁log, -, hoccurs, -⟩ := h.cut hpolled
    have hmem : .polled g v' (.readyOk q) ∈ s.log := by
      rw [hpolled]
      simp
    have hg := hsole hmem hu fun removed hdropped =>
      hs₁.undropped hoccurs.polled_inv.2.1 removed (by rw [hs₁log]; simp [hdropped])
    rw [hg] at hmem
    exact honce v' q hmem

/-- **A client whose calls have their uuids to themselves** meets no entry that is not its
own, when it polls no future again after its answer. -/
theorem untaken_of_alone (hside : e.side = .client) (h : Runs.Reachable (step e) Alone .init s)
    (honce : PolledOnce s.log) : Runs.Reachable (step e) Untaken .init s := by
  induction h with
  | init => exact .init
  | @step s t a hs ha hstep ih =>
    have hprefix : s.log <+: t.log :=
      step_events (P := fun u => s.log <+: u.log) List.prefix_rfl
        (fun u ev v hu hev => by rw [hev.log]; exact hu.trans (List.prefix_append ..)) hstep
    refine .step (ih (honce.sublist hprefix.sublist)) ?_ hstep
    cases a with
    | poll f w =>
      obtain ⟨ev, hev⟩ := step_event hstep id
      have hlog := hev.log
      cases hev with
      | polled hlive hlock =>
        refine (history_of_reachable hs).untaken hside hlive (fun v q hmem => ?_) w
        rw [hlog] at honce
        exact (List.pairwise_append.mp honce).2.2 _ hmem _ (List.mem_singleton_self _)
          (by simp [Event.pollsAgain])
      | pollFailed hlive hlock => exact fun hfree => by cases hlock.symm.trans hfree
    | _ => trivial

/-- **An answer under the condition**: where its message is in the log, and that no
answer for the uuid came in between. -/
theorem answer_message (hside : e.side = .client)
    (h : Runs.Reachable (step e) Untaken .init s) {i : Nat} {f : Ticket} {w : Waker} {r : Response}
    (hi : s.log[i]? = some (.polled f w (.readyOk r))) :
    ∃ l v l' rest, s.log = l ++ .delivered f.uuid r.data (.woke v) ::
        (l' ++ .polled f w (.readyOk r) :: rest) ∧ i = l.length + 1 + l'.length ∧
      r.uuid = f.uuid ∧ .returned f .ok ∈ l ∧ Unanswered f.uuid l' := by
  obtain ⟨rest, hsplit, hlength⟩ := split_of_getElem? hi
  obtain ⟨s₀, a, t₀, hs₀, hlog, hallowed, hoccurs, -⟩ := (history_of_reachable h).cut hsplit
  obtain ⟨rfl, -, ⟨-, hr⟩ | ⟨hlock, hr⟩⟩ := hoccurs.polled_inv
  · cases hr
  obtain ⟨hcompleted, huuid⟩ := result_readyOk hr.symm
  have huntaken : Untaken s₀ (.poll f w) := hallowed.resolve_right id
  have hpoisoned : ¬ Poisoned s₀.log := by
    rw [← hs₀.poisoned_iff, hlock]
    decide
  have hentry := hcompleted
  rw [hs₀.lookup] at hentry
  obtain ⟨l, x, v, l', hs₀log, hdeliver⟩ := hs₀.completed hside hpoisoned hentry
  obtain ⟨hcreated, hanswer⟩ := huntaken hlock ⟨_, hcompleted⟩ l x v l' hs₀log hdeliver
  rw [hs₀.lookup] at hcompleted
  cases hs₀.completed_eq hside hs₀log hanswer hdeliver _ hcompleted
  refine ⟨l, v, l', rest, ?_, ?_, huuid, hcreated, hanswer⟩
  · rw [hsplit, ← hlog, hs₀log]
    simp
  · rw [← hlength, ← hlog, hs₀log, List.length_append, List.length_cons]
    omega

/-- **Every answer is a message of its own**, when no poll meets an entry that
another has emptied or that was completed before its future was made. -/
theorem answers_matched (hside : e.side = .client)
    (h : Runs.Reachable (step e) Untaken .init s) : Matched s.log := by
  have hmessage : ∀ i : Nat, ∃ j : Nat, ∀ (f : Ticket) (w : Waker) (r : Response),
      s.log[i]? = some (.polled f w (.readyOk r)) →
      r.uuid = f.uuid ∧ j < i ∧ (∃ outcome, s.log[j]? = some (.delivered f.uuid r.data outcome)) ∧
      (∃ k < j, s.log[k]? = some (.returned f .ok)) ∧
      ∀ k, j < k → k < i → ∀ (g : Ticket) (v : Waker) (q : Response),
        s.log[k]? = some (.polled g v (.readyOk q)) → g.uuid ≠ f.uuid := by
    intro i
    by_cases hi : ∃ f w r, s.log[i]? = some (.polled f w (.readyOk r))
    · obtain ⟨f, w, r, hi⟩ := hi
      obtain ⟨l, v, l', rest, hlog, hlength, huuid, hcreated, hanswer⟩ := answer_message hside h hi
      refine ⟨l.length, fun f' w' r' hi' => ?_⟩
      cases hi.symm.trans hi'
      refine ⟨huuid, by omega, ⟨.woke v, by rw [hlog]; exact getElem?_split⟩, ?_, ?_⟩
      · obtain ⟨k, hk, hget⟩ := List.getElem_of_mem hcreated
        exact ⟨k, hk, by rw [hlog, List.getElem?_append_left hk, List.getElem?_eq_getElem hk, hget]⟩
      · intro k hjk hki g v' q hk
        rw [hlog, List.getElem?_append_right hjk.le,
          show k - l.length = (k - l.length - 1) + 1 by omega, List.getElem?_cons_succ,
          List.getElem?_append_left (by omega)] at hk
        exact hanswer g v' q (List.mem_of_getElem? hk)
    · exact ⟨0, fun f w r hi' => absurd ⟨f, w, r, hi'⟩ hi⟩
  choose m hm using hmessage
  refine ⟨m, fun i f w r hi => ?_, fun i j f g w v r q hi hj hij => ?_⟩
  · obtain ⟨huuid, hlt, hdelivered, hcreated, -⟩ := hm i f w r hi
    exact ⟨huuid, hlt, hdelivered, hcreated⟩
  · obtain ⟨-, hi', ⟨o, ho⟩, -, hbetween⟩ := hm i f w r hi
    obtain ⟨-, hj', ⟨o', ho'⟩, -, hbetween'⟩ := hm j g v q hj
    rw [hij, ho'] at ho
    injection ho with ho
    injection ho with huuid
    -- Of two answers with one message, the earlier would lie before the later.
    rcases Nat.lt_trichotomy i j with hlt | heq | hlt
    · exact absurd huuid.symm (hbetween' i (by omega) hlt f w r hi)
    · exact heq
    · exact absurd huuid (hbetween j (by omega) hlt g v q hj)

/-- The answers of both futures of a conversation. -/
def answeredLog : List Event :=
  conversationLog ++ [.polled secondCall 2 .pending] ++ incomingLog .nil [8] (.woke 2) ++
    [.polled secondCall 3 (.readyOk ⟨.nil, [8]⟩)]

theorem answers_matched_answered : Matched answeredLog := by
  have hrun : (Runs.tested (step exampleClient) (fun s a => decide (Alone s a)) .init
      (request exampleCall ++ [.poll exampleCall 0, incoming .nil [9], .poll exampleCall 1,
        .drop exampleCall, .reply secondCall (.bytes [1]), .push secondCall, .ret secondCall,
        .poll secondCall 2, incoming .nil [8], .poll secondCall 3])).map State.log =
      some answeredLog := by decide +kernel
  obtain ⟨s, hs, hlog⟩ := Option.map_eq_some_iff.mp hrun
  have honce : PolledOnce s.log := by
    rw [hlog]
    unfold PolledOnce
    decide +kernel
  rw [← hlog]
  exact answers_matched rfl (untaken_of_alone rfl
    (Runs.Reachable.init.tested (fun _ _ => of_decide_eq_true) hs) honce)

/-! ### An answer that is nobody's message -/

theorem followUp_log : (Runs.run (step exampleClient) .init (request exampleCall ++
      [.poll exampleCall 0, incoming .nil [9], .poll exampleCall 1, .reply secondCall (.bytes [1]),
        .push secondCall, .ret secondCall, .poll secondCall 0])).map State.log =
    some (requestLog exampleCall ++ [.polled exampleCall 0 .pending] ++
      incomingLog .nil [9] (.woke 0) ++ [.polled exampleCall 1 (.readyOk ⟨.nil, [9]⟩)] ++
      requestLog secondCall ++ [.polled secondCall 0 (.readyOk ⟨.nil, []⟩)]) := by
  decide +kernel

/-- **An invented reply**: the follow-up's future is answered at once, with nothing. -/
theorem followUp_invented : ¬ ∀ s, Runs.Reachable (step exampleClient) (fun _ _ => True) .init s →
    PolledOnce s.log → Matched s.log := by
  intro hclaim
  obtain ⟨s, hs, hlog⟩ := reachable_of_log followUp_log
  have honce : PolledOnce s.log := by
    rw [hlog]
    unfold PolledOnce
    decide +kernel
  obtain ⟨m, hm, -⟩ := hclaim s hs honce
  rw [hlog] at hm
  obtain ⟨-, -, ⟨outcome, hdelivered⟩, -⟩ := hm 10 secondCall 0 ⟨.nil, []⟩ rfl
  have hmem := List.mem_of_getElem? hdelivered
  simp [requestLog, incomingLog] at hmem

end Wsmq
