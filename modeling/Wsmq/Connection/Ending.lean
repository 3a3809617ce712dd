import Wsmq.Connection.Wakeups

/-! The end of the client's task, and who still waits after it.

A future whose last poll returned `Pending` is safe as long as its entry is `Started`
with its own waker and `clear` is still to come. That fails in three ways: another
future of the uuid takes the entry away or is the one whose waker is stored; a poll
comes after the first half of `clear` has woken everyone; the task is aborted, or
panics, and `clear` does not run. `EndsOrderly` and `AbortsOrderly` rule these out
step by step. -/
namespace Wsmq

variable {e : Endpoint} {Allowed : State → Action → Prop} {s t : State}

/-- The last poll of `f` was with `w` and returned `Pending`; `since` came after. -/
def PendingSince (log : List Event) (f : Ticket) (w : Waker) (since : List Event) : Prop :=
  (∃ l, log = l ++ .polled f w .pending :: since) ∧ ∀ w' r, .polled f w' r ∉ since

/-- `f` is a future whose last poll returned `Pending`. -/
def Waiting (s : State) (f : Ticket) : Prop :=
  s.calls f = .live ∧ ∃ w since, PendingSince s.log f w since

/-! ### Conditions on a step -/

/-- An entry that the poll finds started holds the poll's own waker. -/
def OwnWaker (s : State) (f : Ticket) (w : Waker) : Prop :=
  ∀ w', s.responses.lookup f.uuid = some (.started w') → w' = w

/-- A poll would not wait: the entry is completed or gone. -/
def PollsReady (s : State) (f : Ticket) : Prop :=
  s.responses.lookup f.uuid ≠ some .none ∧ ∀ w, s.responses.lookup f.uuid ≠ some (.started w)

/-- No other future waits on a started entry that the drop takes away. -/
def DropsAlone (s : State) (f : Ticket) : Prop :=
  ∀ w, s.responses.lookup f.uuid = some (.started w) →
    ∀ g, g ≠ f → g.uuid = f.uuid → ¬ Waiting s g

/-- The task ends by itself, with an unpoisoned table, and once everyone was woken no
poll waits. -/
def EndsOrderly (s : State) : Action → Prop
  | .poll f w => s.lock = .free →
    OwnWaker s f w ∧ (s.task = .running ∨ s.task = .selected ∨ PollsReady s f)
  | .drop f => s.lock = .free → DropsAlone s f
  | .clearWake => s.lock ≠ .poisoned
  | .clearEmpty => s.lock ≠ .poisoned
  | .abort => False
  | _ => True

/-! ### One step -/

theorem pendingSince_snoc {log since : List Event} {ev : Event} {f : Ticket} {w : Waker}
    (h : PendingSince (log ++ [ev]) f w since) :
    (ev = .polled f w .pending ∧ since = []) ∨
      ∃ b, since = b ++ [ev] ∧ PendingSince log f w b := by
  obtain ⟨⟨l, hl⟩, hlast⟩ := h
  rcases snoc_split hl with ⟨rfl, rfl, rfl⟩ | ⟨b, rfl, rfl⟩
  · exact .inl ⟨rfl, rfl⟩
  · exact .inr ⟨b, rfl, ⟨l, rfl⟩, fun w' r hmem => hlast w' r (List.mem_append_left _ hmem)⟩

theorem PendingSince.live_before {a : Action} {ev : Event} (hs : History e Allowed s)
    (h : Occurs e s a ev t) {f : Ticket} {w : Waker} {since : List Event}
    (hpending : PendingSince s.log f w since) (hlive : t.calls f = .live) :
    s.calls f = .live := by
  obtain ⟨⟨l, hl⟩, -⟩ := hpending
  refine h.live_before hlive ?_
  have hmem : .polled f w .pending ∈ s.log := by
    rw [hl]
    simp
  have hrank := hs.rank_le hmem f
  simpa [Event.rank] using hrank

theorem PollsReady.result {f : Ticket} (h : PollsReady s f) :
    Entry.result f.uuid (s.responses.lookup f.uuid) ≠ .pending := by
  unfold PollsReady at h
  revert h
  generalize s.responses.lookup f.uuid = entry
  intro h hr
  rcases entry with - | - | w | data
  · cases hr
  · exact h.1 rfl
  · exact h.2 w rfl
  · cases hr

/-- A poll that waits leaves its own waker in the entry. -/
theorem Occurs.polled_pending {a : Action} {f : Ticket} {w : Waker}
    (h : Occurs e s a (.polled f w .pending) t) (hown : s.lock = .free → OwnWaker s f w) :
    a = .poll f w ∧ s.lock = .free ∧ ¬ PollsReady s f ∧
      t.responses.lookup f.uuid = some (.started w) := by
  have hlookup := h.lookup f.uuid
  rw [Event.entry_polled _ _ _ _ _ (by decide), if_pos rfl] at hlookup
  obtain ⟨ha, -, ⟨-, hr⟩ | ⟨hlock, hr⟩⟩ := h.polled_inv
  · cases hr
  refine ⟨ha, hlock, fun hready => hready.result hr.symm, ?_⟩
  have hown := hown hlock
  unfold OwnWaker at hown
  rw [hlookup]
  revert hown hr
  generalize s.responses.lookup f.uuid = entry
  intro hr hown
  rcases entry with - | - | w' | data
  · cases hr
  · rfl
  · rw [hown w' rfl]
    rfl
  · cases hr

/-- A started entry stays, or its waker is woken, or the table is emptied. -/
theorem Occurs.started (hside : e.side = .client) {a : Action} {ev : Event}
    (h : Occurs e s a ev t) {u : Uuid} {w : Waker}
    (hentry : s.responses.lookup u = some (.started w))
    (hdrop : ∀ f, ev = .dropped f true → u ≠ f.uuid) :
    t.responses.lookup u = some (.started w) ∨
      (ev.wakes u w ∧ ∃ x, t.responses.lookup u = some (.completed x)) ∨ ev = .clearEmptied := by
  have hlookup := h.lookup u
  obtain ⟨g, hg, heq⟩ := touch u ev
  rw [heq, hentry] at hlookup
  cases hg with
  | opened hu => exact .inl hlookup
  | polled hu => exact .inl hlookup
  | dropped hu => exact absurd hu (hdrop _ rfl)
  | delivered x outcome =>
    rcases h.delivered_inv hside with ⟨-, rfl⟩ | ⟨-, rfl⟩
    · exact .inl (hlookup.trans (heq _).symm)
    · rw [hentry]
      exact .inr (.inl ⟨⟨rfl, rfl⟩, x, hlookup⟩)
  | emptied => exact .inr (.inr rfl)
  | other => exact .inl hlookup

/-- How the client's task leaves its first two phases. -/
theorem Occurs.task_started (hside : e.side = .client) {a : Action} {ev : Event}
    (h : Occurs e s a ev t) (htask : s.task = .running ∨ s.task = .selected) :
    (t.task = .running ∨ t.task = .selected) ∨ a = .clearWake ∨ a = .abort := by
  cases h with
  | selected => exact .inl (.inr rfl)
  | canceled => exact .inl (.inr rfl)
  | clearWoke | clearWakePanicked => exact .inr (.inl rfl)
  | aborted => exact .inr (.inr rfl)
  | clearEmptied hwoke | clearEmptyPanicked hwoke => rw [hwoke] at htask; simp at htask
  | receiverDropped hdone =>
    rcases hdone with ⟨-, hcleared⟩ | ⟨hserver, -⟩
    · rw [hcleared] at htask
      simp at htask
    · cases hside.symm.trans hserver
  | _ => exact .inl htask

theorem DropsAlone.ne {a : Action} {ev : Event} (h : Occurs e s a ev t)
    (hdrop : ∀ f, a = .drop f → s.lock = .free → DropsAlone s f) {f : Ticket} {w : Waker}
    (hwaiting : Waiting s f) (hlive : t.calls f = .live)
    (hentry : s.responses.lookup f.uuid = some (.started w)) :
    ∀ g, ev = .dropped g true → f.uuid ≠ g.uuid := by
  rintro g rfl huuid
  cases h with
  | dropped hg hlock =>
    refine hdrop g rfl hlock w (huuid ▸ hentry) f ?_ huuid hwaiting
    rintro rfl
    simp at hlive

/-! ### An end by itself -/

/-- Whoever waits was woken since, or will be by `clear`. -/
def Guarded (s : State) : Prop := ∀ f w since, s.calls f = .live → PendingSince s.log f w since →
  (∃ ev ∈ since, ev.wakes f.uuid w) ∨
    (s.responses.lookup f.uuid = some (.started w) ∧ (s.task = .running ∨ s.task = .selected))

theorem guarded_step (hside : e.side = .client) {a : Action} {ev : Event}
    (hs : History e EndsOrderly s) (hguarded : Guarded s) (ha : EndsOrderly s a ∨ a.isReceive)
    (h : Occurs e s a ev t) : Guarded t := by
  intro f w since hlive hpending
  rw [h.log] at hpending
  rcases pendingSince_snoc hpending with ⟨rfl, rfl⟩ | ⟨b, rfl, hb⟩
  · have hown : s.lock = .free → OwnWaker s f w := by
      obtain ⟨rfl, -⟩ := h.polled_inv
      exact fun hlock => (ha.resolve_right id hlock).1
    obtain ⟨rfl, hlock, hwaits, hstarted⟩ := h.polled_pending hown
    have htask : s.task = .running ∨ s.task = .selected := by
      rcases (ha.resolve_right id hlock).2 with htask | htask | hready
      · exact .inl htask
      · exact .inr htask
      · exact absurd hready hwaits
    exact .inr ⟨hstarted, by rwa [h.polled_task]⟩
  · have hlives := PendingSince.live_before hs h hb hlive
    rcases hguarded f w b hlives hb with ⟨ev', hev', hwakes⟩ | ⟨hentry, htask⟩
    · exact .inl ⟨ev', List.mem_append_left _ hev', hwakes⟩
    have hdrop : ∀ g, a = .drop g → s.lock = .free → DropsAlone s g := by
      rintro g rfl
      exact ha.resolve_right id
    rcases h.started hside hentry (DropsAlone.ne h hdrop ⟨hlives, w, b, hb⟩ hlive hentry) with
      hentry' | ⟨hwakes, -⟩ | rfl
    · rcases h.task_started hside htask with htask' | rfl | rfl
      · exact .inr ⟨hentry', htask'⟩
      · cases h with
        | clearWoke =>
          exact .inl ⟨_, List.mem_append_right _ (List.mem_singleton_self _),
            (mem_startedWakers _ _ _).mpr hentry⟩
        | clearWakePanicked _ _ hlock => exact absurd hlock (ha.resolve_right id)
      · exact (ha.resolve_right id).elim
    · exact .inl ⟨ev, by simp, hwakes⟩
    · cases h with
      | clearEmptied hwoke => rw [hwoke] at htask; simp at htask

theorem History.guarded (hside : e.side = .client) (h : History e EndsOrderly s) : Guarded s := by
  induction h with
  | init => exact fun f w since hlive => by cases hlive
  | event hs ha hev ih => exact guarded_step hside hs ih ha hev

/-- Without an abort or a poisoned table, the receiver is gone when it was dropped. -/
theorem History.ended_iff (hside : e.side = .client) (h : History e EndsOrderly s) :
    s.task = .ended ↔ .receiverDropped ∈ s.log := by
  induction h with
  | init => simp [State.init]
  | event hs ha hev ih =>
    cases hev with
    | clearWakePanicked _ _ hlock => exact absurd hlock (ha.resolve_right id)
    | clearEmptyPanicked _ hlock => exact absurd hlock (ha.resolve_right id)
    | aborted => exact (ha.resolve_right id).elim
    | canceled _ hserver => cases hside.symm.trans hserver
    | selected htask | clearWoke _ htask | clearEmptied htask =>
      rw [htask] at ih
      simpa using ih
    | receiverDropped => simp
    | _ => simpa using ih

/-- **No wakeup is lost when the connection ends by itself**, in a run without the
three failures: whoever still waits when the receiver is gone was woken since. Frames
are queued exactly as long as it is not. -/
theorem ended_woken (hside : e.side = .client)
    (h : Runs.Reachable (step e) EndsOrderly .init s) :
    (s.task = .ended → ∀ f w since, s.calls f = .live → PendingSince s.log f w since →
      ∃ ev ∈ since, ev.wakes f.uuid w) ∧
    (∀ l c frame l', s.log = l ++ .queued c frame :: l' → .receiverDropped ∉ l) ∧
    ∀ l c frame l', s.log = l ++ .refused c frame :: l' → .receiverDropped ∈ l := by
  have hh := history_of_reachable h
  refine ⟨fun hended f w since hlive hpending => ?_, fun l c frame l' hlog => ?_,
    fun l c frame l' hlog => ?_⟩
  · rcases hh.guarded hside f w since hlive hpending with hwoken | ⟨-, htask⟩
    · exact hwoken
    · rw [hended] at htask
      simp at htask
  · obtain ⟨s₀, a, t₀, hs₀, rfl, -, hoccurs, -⟩ := hh.cut hlog
    rw [← hs₀.ended_iff hside]
    cases hoccurs with
    | queued hcall hopen => exact hopen
  · obtain ⟨s₀, a, t₀, hs₀, rfl, -, hoccurs, -⟩ := hh.cut hlog
    rw [← hs₀.ended_iff hside]
    cases hoccurs with
    | refused hcall hclosed => exact hclosed

/-- The end of the client's task, undisturbed. -/
def ending : List Action := [.select, .clearWake, .clearEmpty, .dropReceiver]

def endsTest (s : State) : Action → Bool
  | .poll f _ => s.responses.lookup f.uuid = some .none && s.task = .running
  | .drop _ => false
  | .clearWake => s.lock = .free
  | .clearEmpty => s.lock = .free
  | .abort => false
  | _ => true

theorem endsOrderly_of_test (s : State) (a : Action) (h : endsTest s a = true) :
    EndsOrderly s a := by
  cases a with
  | poll f w =>
    obtain ⟨hnone, htask⟩ := Bool.and_eq_true_iff.mp h
    refine fun hlock => ⟨fun w' hw' => ?_, .inl (of_decide_eq_true htask)⟩
    cases hw'.symm.trans (of_decide_eq_true hnone)
  | drop f => cases h
  | clearWake => exact fun hlock => by cases hlock.symm.trans (of_decide_eq_true h)
  | clearEmpty => exact fun hlock => by cases hlock.symm.trans (of_decide_eq_true h)
  | abort => cases h
  | _ => trivial

theorem ended_woken_waiting : ∃ ev ∈ [Event.selected, .clearWoke {(.nil, 0)}, .clearEmptied,
    .receiverDropped], ev.wakes .nil 0 := by
  have hrun : (Runs.tested (step exampleClient) endsTest .init (request exampleCall ++
      .poll exampleCall 0 :: ending)).map (fun s => (s.log, s.task, s.calls exampleCall)) =
      some (requestLog exampleCall ++ .polled exampleCall 0 .pending :: [.selected,
        .clearWoke {(.nil, 0)}, .clearEmptied, .receiverDropped], .ended, .live) := by
    decide +kernel
  obtain ⟨s, hs, hview⟩ := Option.map_eq_some_iff.mp hrun
  obtain ⟨hlog, hrest⟩ := Prod.mk.inj hview
  obtain ⟨htask, hlive⟩ := Prod.mk.inj hrest
  exact (ended_woken rfl (Runs.Reachable.init.tested endsOrderly_of_test hs)).1 htask exampleCall 0
    _ hlive ⟨⟨_, hlog⟩, fun w' r hmem => by simp at hmem⟩

/-- **A wakeup is lost**: a request made and polled between the halves of `clear`
waits for ever. -/
theorem request_in_clear_waits : ¬ ∀ s,
    Runs.Reachable (step exampleClient) (fun _ _ => True) .init s → s.task = .ended →
    .aborted ∉ s.log → (∀ f w w' r r', .polled f w r ∈ s.log → .polled f w' r' ∈ s.log → w = w') →
    ∀ f w since, s.calls f = .live → PendingSince s.log f w since →
      ∃ ev ∈ since, ∃ u, ev.wakes u w := by
  intro hclaim
  have hrun : (Runs.run (step exampleClient) .init ([.select, .clearWake] ++ request exampleCall ++
      [.poll exampleCall 0, .clearEmpty, .dropReceiver])).map
        (fun s => (s.log, s.task, s.calls exampleCall)) =
      some ([.selected, .clearWoke 0] ++ requestLog exampleCall ++ .polled exampleCall 0 .pending ::
        [.clearEmptied, .receiverDropped], .ended, .live) := by
    decide +kernel
  obtain ⟨s, hs, hview⟩ := reachable_of_view _ hrun
  obtain ⟨hlog, hrest⟩ := Prod.mk.inj hview
  obtain ⟨htask, hlive⟩ := Prod.mk.inj hrest
  obtain ⟨ev, hev, u, hwakes⟩ := hclaim s hs htask (by rw [hlog]; simp [requestLog])
    (fun f w w' r r' hw hw' => by
      rw [hlog] at hw hw'
      simp [requestLog] at hw hw'
      rw [hw.2.1, hw'.2.1])
    exampleCall 0 _ hlive ⟨⟨_, hlog⟩, fun w' r hmem => by simp at hmem⟩
  simp only [List.mem_cons, List.not_mem_nil, or_false] at hev
  rcases hev with rfl | rfl <;> exact hwakes

/-! ### An end by `close` or drop of the client -/

/-- When the task is aborted no entry of a live future is started; after that no poll
waits, and no call makes an entry anew for a future that waits. -/
def AbortsOrderly (s : State) : Action → Prop
  | .poll f w => s.lock = .free → OwnWaker s f w ∧ (s.task ≠ .ended ∨ PollsReady s f)
  | .drop f => s.lock = .free → DropsAlone s f
  | .send c _ | .reply c _ => s.lock = .free → s.responses.lookup c.uuid = none →
    ∀ f, f.uuid = c.uuid → ¬ Waiting s f
  | .abort => ∀ f w, s.calls f = .live → s.responses.lookup f.uuid ≠ some (.started w)
  | _ => True

/-- Up to an abort and after it, whoever waits was woken since and will find the entry
ready, or its waker is stored and the task runs. -/
def Released (s : State) : Prop := ∀ f w since, s.calls f = .live → PendingSince s.log f w since →
  ((∃ ev ∈ since, ev.wakes f.uuid w) ∧ PollsReady s f) ∨
    (s.responses.lookup f.uuid = some (.started w) ∧ s.task = .running)

theorem Occurs.ended (hside : e.side = .client) {a : Action} {ev : Event} (h : Occurs e s a ev t)
    (hended : s.task = .ended) : t.task = .ended := by
  cases h with
  | canceled _ hserver => cases hside.symm.trans hserver
  | selected htask | clearWoke _ htask | clearEmptied htask => cases hended.symm.trans htask
  | clearWakePanicked | clearEmptyPanicked | receiverDropped | aborted => rfl
  | _ => exact hended

theorem History.aborted (hside : e.side = .client) (h : History e Allowed s)
    (habort : .aborted ∈ s.log) : s.task = .ended := by
  induction h with
  | init => cases habort
  | event hs ha hev ih =>
    rw [hev.log] at habort
    rcases List.mem_append.mp habort with habort | habort
    · exact hev.ended hside (ih habort)
    · cases List.mem_singleton.mp habort
      cases hev
      rfl

/-- The task runs only if it ran before. -/
theorem Occurs.running {a : Action} {ev : Event} (h : Occurs e s a ev t)
    (hrun : t.task = .running ∨ .aborted ∈ t.log) : s.task = .running ∨ .aborted ∈ s.log := by
  cases h with
  | aborted _ htask => exact .inl htask
  | selected | canceled | clearWoke | clearWakePanicked | clearEmptied | clearEmptyPanicked
  | receiverDropped => exact .inr (by simpa using hrun)
  | _ => simpa using hrun

/-- An entry that is ready stays ready while no call makes it anew. -/
theorem Occurs.ready {a : Action} {ev : Event} (h : Occurs e s a ev t) {f : Ticket}
    (hready : PollsReady s f) (hopen : ∀ c, ev = .opened c → f.uuid = c.uuid →
      s.responses.lookup f.uuid ≠ none) : PollsReady t f := by
  have hlookup := h.lookup f.uuid
  obtain ⟨g, hg, heq⟩ := touch f.uuid ev
  rw [heq] at hlookup
  unfold PollsReady at hready ⊢
  rw [hlookup]
  revert hready hopen
  generalize s.responses.lookup f.uuid = entry
  intro hready hopen
  cases hg with
  | opened hu =>
    cases entry with
    | none => exact absurd rfl (hopen _ rfl hu)
    | some status => exact hready
  | polled hu =>
    rcases entry with - | - | w | data
    · exact hready
    · exact absurd rfl hready.1
    · exact absurd rfl (hready.2 w)
    · exact ⟨fun h => (by cases h), fun w h => by cases h⟩
  | dropped hu => exact ⟨fun h => (by cases h), fun w h => by cases h⟩
  | delivered x outcome =>
    rw [deliver_unstarted hready.2]
    exact ⟨fun h => (by cases h), fun w h => by cases h⟩
  | emptied => exact ⟨fun h => (by cases h), fun w h => by cases h⟩
  | other => exact hready

theorem released_step (hside : e.side = .client) {a : Action} {ev : Event}
    (hs : History e AbortsOrderly s) (hreleased : Released s)
    (hrun : t.task = .running ∨ .aborted ∈ t.log) (ha : AbortsOrderly s a ∨ a.isReceive)
    (h : Occurs e s a ev t) : Released t := by
  intro f w since hlive hpending
  rw [h.log] at hpending
  rcases pendingSince_snoc hpending with ⟨rfl, rfl⟩ | ⟨b, rfl, hb⟩
  · have hown : s.lock = .free → OwnWaker s f w := by
      obtain ⟨rfl, -⟩ := h.polled_inv
      exact fun hlock => (ha.resolve_right id hlock).1
    obtain ⟨rfl, hlock, hwaits, hstarted⟩ := h.polled_pending hown
    have htask : s.task = .running := by
      rcases h.running hrun with htask | habort
      · exact htask
      · rcases (ha.resolve_right id hlock).2 with htask | hready
        · exact absurd (hs.aborted hside habort) htask
        · exact absurd hready hwaits
    exact .inr ⟨hstarted, h.polled_task.trans htask⟩
  · have hlives := PendingSince.live_before hs h hb hlive
    have hwaiting : Waiting s f := ⟨hlives, w, b, hb⟩
    rcases hreleased f w b hlives hb with ⟨⟨ev', hev', hwakes⟩, hready⟩ | ⟨hentry, htask⟩
    · refine .inl ⟨⟨ev', List.mem_append_left _ hev', hwakes⟩, h.ready hready ?_⟩
      rintro c rfl huuid hnone
      rw [huuid] at hnone
      cases h with
      | sent _ _ hlock => exact ha.resolve_right id hlock hnone f huuid hwaiting
      | replied _ _ hlock => exact ha.resolve_right id hlock hnone f huuid hwaiting
    have hdrop : ∀ g, a = .drop g → s.lock = .free → DropsAlone s g := by
      rintro g rfl
      exact ha.resolve_right id
    rcases h.started hside hentry (DropsAlone.ne h hdrop hwaiting hlive hentry) with
      hentry' | ⟨hwakes, x, hcompleted⟩ | rfl
    · rcases hrun with hrun | habort
      · exact .inr ⟨hentry', hrun⟩
      · rw [h.log] at habort
        rcases List.mem_append.mp habort with habort | habort
        · cases htask.symm.trans (hs.aborted hside habort)
        · cases List.mem_singleton.mp habort
          cases h
          exact absurd hentry (ha.resolve_right id f w hlives)
    · refine .inl ⟨⟨ev, by simp, hwakes⟩, ?_⟩
      unfold PollsReady
      rw [hcompleted]
      exact ⟨fun h => (by cases h), fun w h => by cases h⟩
    · cases h with
      | clearEmptied hwoke => cases htask.symm.trans hwoke

theorem History.released (hside : e.side = .client) (h : History e AbortsOrderly s)
    (hrun : s.task = .running ∨ .aborted ∈ s.log) : Released s := by
  induction h with
  | init => exact fun f w since hlive => by cases hlive
  | event hs ha hev ih => exact released_step hside hs (ih (hev.running hrun)) hrun ha hev

/-- **No pending request survives an abort** that comes when no entry is started, in a
run without the other failures: whoever waits was woken, and its next poll is ready. -/
theorem aborted_woken (hside : e.side = .client)
    (h : Runs.Reachable (step e) AbortsOrderly .init s) (habort : .aborted ∈ s.log) :
    ∀ f w since, s.calls f = .live → PendingSince s.log f w since →
      (∃ ev ∈ since, ev.wakes f.uuid w) ∧ ∀ w' t, step e s (.poll f w') = some t →
        ∃ r, t.log = s.log ++ [.polled f w' r] ∧ r ≠ .pending := by
  intro f w since hlive hpending
  have hh := history_of_reachable h
  rcases hh.released hside (.inr habort) f w since hlive hpending with ⟨hwoken, hready⟩ | ⟨-, htask⟩
  · refine ⟨hwoken, fun w' t hstep => ?_⟩
    obtain ⟨ev, hev⟩ := step_event hstep id
    have hlog := hev.log
    cases hev with
    | polled _ hlock =>
      refine ⟨_, hlog, fun hr => ?_⟩
      exact hready.result ((poll_result ..).symm.trans hr)
    | pollFailed _ hlock => exact ⟨_, hlog, by decide⟩
  · cases htask.symm.trans (hh.aborted hside habort)

def abortsTest (s : State) : Action → Bool
  | .poll f _ => s.responses.lookup f.uuid = some .none && s.task = .running
  | .drop _ => false
  | .send _ _ => s.log = []
  | .reply _ _ => false
  | .abort => s.responses = (∅ : ResponseStatusMap).insert .nil (.completed [9])
  | _ => true

theorem abortsOrderly_of_test (s : State) (a : Action) (h : abortsTest s a = true) :
    AbortsOrderly s a := by
  cases a with
  | poll f w =>
    obtain ⟨hnone, htask⟩ := Bool.and_eq_true_iff.mp h
    refine fun hlock => ⟨fun w' hw' => ?_, .inl ?_⟩
    · cases hw'.symm.trans (of_decide_eq_true hnone)
    · rw [of_decide_eq_true htask]
      decide
  | drop f => cases h
  | send c request =>
    rintro hlock hnone f huuid ⟨hlive, w, since, ⟨l, hl⟩, hlast⟩
    rw [of_decide_eq_true h] at hl
    simp at hl
  | reply c request => cases h
  | abort =>
    intro f w hlive
    rw [of_decide_eq_true h, HashMap.lookup_insert_ite]
    split
    · simp
    · simp
  | _ => trivial

theorem aborted_woken_answered : ∃ ev ∈ [Event.received (Protobuf.generated.writeToBytes
      (oneshotFrame .nil [9])), .delivered .nil [9] (.woke 0), .aborted], ev.wakes .nil 0 := by
  have hrun : (Runs.tested (step exampleClient) abortsTest .init (request exampleCall ++
      [.poll exampleCall 0, incoming .nil [9], .abort])).map
        (fun s => (s.log, s.calls exampleCall)) =
      some (requestLog exampleCall ++ .polled exampleCall 0 .pending ::
        [.received (Protobuf.generated.writeToBytes (oneshotFrame .nil [9])),
          .delivered .nil [9] (.woke 0), .aborted], .live) := by
    decide +kernel
  obtain ⟨s, hs, hview⟩ := Option.map_eq_some_iff.mp hrun
  obtain ⟨hlog, hlive⟩ := Prod.mk.inj hview
  exact (aborted_woken rfl (Runs.Reachable.init.tested abortsOrderly_of_test hs)
    (by rw [hlog]; simp) exampleCall 0 _ hlive
    ⟨⟨_, hlog⟩, fun w' r hmem => by simp at hmem⟩).1

/-- **A pending request survives `close`**: nobody wakes its future. -/
theorem request_survives_abort : ¬ ∀ s,
    Runs.Reachable (step exampleClient) (fun _ _ => True) .init s → .aborted ∈ s.log →
    ∀ f w since, s.calls f = .live → PendingSince s.log f w since →
      (∃ ev ∈ since, ∃ u, ev.wakes u w) ∧
        ∀ w' t, step exampleClient s (.poll f w') = some t →
          ∃ r, t.log = s.log ++ [.polled f w' r] ∧ r ≠ .pending := by
  intro hclaim
  have hrun : (Runs.run (step exampleClient) .init (request exampleCall ++
      [.poll exampleCall 0, .abort])).map (fun s => (s.log, s.calls exampleCall)) =
      some (requestLog exampleCall ++ .polled exampleCall 0 .pending :: [.aborted], .live) := by
    decide +kernel
  obtain ⟨s, hs, hview⟩ := reachable_of_view _ hrun
  obtain ⟨hlog, hlive⟩ := Prod.mk.inj hview
  obtain ⟨⟨ev, hev, u, hwakes⟩, -⟩ := hclaim s hs (by rw [hlog]; simp) exampleCall 0 _ hlive
    ⟨⟨_, hlog⟩, fun w' r hmem => by simp at hmem⟩
  cases List.mem_singleton.mp hev
  exact hwakes

end Wsmq
