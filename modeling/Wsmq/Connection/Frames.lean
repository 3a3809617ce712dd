import Wsmq.Connection.Replies

/-! The frames of one uuid on the wire.

A `send` queues its frames without the mutex, a `reply` with it. They still never mix
within a uuid: the uuid of a `send` is fresh, and a `reply` needs a `Response`, which
the client has only after a future of that uuid was returned, so after its request was
queued to the end (`Exclusive`). The queue, seen by one uuid, is then a row of whole
transfers and what the one call now sending has queued so far (`Lined`). -/
namespace Wsmq

variable {e : Endpoint} {Allowed : State → Action → Prop} {s t : State}

/-- `generate_uuid` draws a uuid that no call has had. -/
def FreshUuid (s : State) : Action → Prop
  | .send c _ => ∀ d, d.uuid = c.uuid → s.calls d = .idle
  | _ => True

/-- The frames of one uuid. -/
def framesOf (u : Uuid) (queue : List Frame) : List Frame :=
  queue.filter fun frame => frame.uuid = u.bytes

theorem framesOf_own {u : Uuid} {frame : Frame} (hframe : frame.uuid = u.bytes)
    (queue : List Frame) : framesOf u (queue ++ [frame]) = framesOf u queue ++ [frame] := by
  rw [framesOf, List.filter_append, List.filter_cons_of_pos (by simp [hframe]), List.filter_nil]
  rfl

theorem framesOf_ne {u v : Uuid} {frame : Frame} (hframe : frame.uuid = v.bytes) (hu : u ≠ v)
    (queue : List Frame) : framesOf u (queue ++ [frame]) = framesOf u queue := by
  have hne : frame.uuid ≠ u.bytes := by
    rw [hframe]
    exact fun h => hu (Uuid.ext h.symm)
  rw [framesOf, List.filter_append, List.filter_cons_of_neg (by simp [hne]), List.filter_nil,
    List.append_nil]
  rfl

theorem sending_result (hb : e.bandwidth ≠ 0) (u : Uuid) (request : Request) :
    (request.sending e.snap e.bandwidth u).result ≠ .panicked := by
  rcases request_shape u hb request with ⟨err, h⟩ | ⟨fs, -, h⟩
  · rw [h]
    exact fun h => by cases h
  · rw [h, Sending.result_queueAll]
    exact fun h => by cases h

/-- What a sending call was before the event. -/
theorem Occurs.sending_inv {a : Action} {ev : Event} (h : Occurs e s a ev t) {c : Ticket}
    {rest : Sending} (hc : t.calls c = .sending rest) : s.calls c = .sending rest ∨
      (s.calls c = .idle ∧ ∃ request : Request, rest = request.sending e.snap e.bandwidth c.uuid) ∨
      (∃ frame, s.calls c = .sending (.queue frame rest)) ∨
      ∃ frame rest', s.calls c = .sending (.queue frame rest') ∧
        rest = .done (.err (.internalError .disconnected)) := by
  cases h with
  | @sent d request _ hidle | @unregistered d request _ hidle | @replied d request _ hidle =>
    simp only [State.record_calls, State.setCall_calls] at hc
    split at hc
    · rename_i hcd
      cases hc
      exact .inr (.inl ⟨hcd ▸ hidle, request, by rw [hcd]⟩)
    · exact .inl hc
  | @queued d frame rest' hcall =>
    simp only [State.record_calls, State.setCall_calls] at hc
    split at hc
    · rename_i hcd
      cases hc
      exact .inr (.inr (.inl ⟨frame, hcd ▸ hcall⟩))
    · exact .inl hc
  | @refused d frame rest' hcall =>
    simp only [State.record_calls, State.setCall_calls] at hc
    split at hc
    · rename_i hcd
      cases hc
      exact .inr (.inr (.inr ⟨frame, rest', hcd ▸ hcall, rfl⟩))
    · exact .inl hc
  | replyFailed | returnedOk | returnedErr | panicked | poisoned | dropped | dropFailed =>
    simp only [State.record_calls, State.release_calls, State.setCall_calls] at hc
    split at hc
    · cases hc
    · exact .inl hc
  | _ => exact .inl hc

theorem History.unpanicked (hb : e.bandwidth ≠ 0) (h : History e Allowed s) :
    s.lock ≠ .poisoned ∧ ∀ c rest, s.calls c = .sending rest → rest.result ≠ .panicked := by
  induction h with
  | init => exact ⟨by decide, fun c rest hc => by cases hc⟩
  | @event s t a ev hs ha hev ih =>
    obtain ⟨hlock, hcalls⟩ := ih
    refine ⟨fun hpoisoned => ?_, fun c rest hc => ?_⟩
    · rcases hev.poisoned_iff.mp hpoisoned with hp | ⟨c, rfl⟩
      · exact hlock hp
      · cases hev with
        | poisoned hcall => exact hcalls c _ hcall rfl
    · rcases hev.sending_inv hc with hkept | ⟨-, request, rfl⟩ | ⟨frame, hqueued⟩ | ⟨_, _, -, rfl⟩
      · exact hcalls c rest hkept
      · exact sending_result hb c.uuid request
      · exact hcalls c (.queue frame rest) hqueued
      · exact fun h => by cases h

/-! ### One sender a uuid -/

/-- A call that sends holds the mutex, or is the client's only call of its uuid. -/
def Exclusive (e : Endpoint) (s : State) : Prop := ∀ c rest, s.calls c = .sending rest →
  s.lock = .held c ∨ (e.side = .client ∧ ∀ d, d ≠ c → d.uuid = c.uuid → s.calls d = .idle)

theorem Exclusive.unique (hx : Exclusive e s) {c d : Ticket} {rest rest' : Sending}
    (hc : s.calls c = .sending rest) (hd : s.calls d = .sending rest') (huuid : c.uuid = d.uuid) :
    c = d := by
  by_contra hne
  rcases hx c rest hc with hlock | ⟨-, hsole⟩
  · rcases hx d rest' hd with hlock' | ⟨-, hsole'⟩
    · cases hlock.symm.trans hlock'
      exact hne rfl
    · cases (hsole' c hne huuid).symm.trans hc
  · cases (hsole d (Ne.symm hne) huuid.symm).symm.trans hd

/-- The user of a client has a `Response` only from a future of its uuid. -/
theorem History.responded (hside : e.side = .client) (h : History e Allowed s) {u : Uuid}
    (hresponse : hasResponse u s.log) : ∃ f, f.uuid = u ∧ 2 ≤ (s.calls f).rank := by
  obtain ⟨ev, hmem, hgives⟩ := List.any_eq_true.mp hresponse
  obtain ⟨l, l', hlog⟩ := List.append_of_mem hmem
  cases ev with
  | polled f w r =>
    cases r with
    | readyOk response =>
      have huuid : response.uuid = u := of_decide_eq_true hgives
      refine ⟨f, ?_, ?_⟩
      · rcases h.polled hlog with ⟨-, hr⟩ | ⟨-, hr⟩
        · cases hr
        · rw [← huuid, (result_readyOk hr.symm).2]
      · have hrank := h.rank_le hmem f
        simpa [Event.rank] using hrank
    | _ => cases hgives
  | delivered v x outcome =>
    cases outcome with
    | handed =>
      rcases h.delivered hside hlog with ⟨-, ho⟩ | ⟨-, ho⟩
      · cases ho
      · exact absurd ho.symm (outcome_ne_handed _)
    | _ => cases hgives
  | _ => cases hgives

theorem Exclusive.setCall (hx : Exclusive e s) {d : Ticket} {stage : Stage}
    (hd : s.calls d ≠ .idle)
    (hstage : (∃ rest, stage = .sending rest) → ∃ rest, s.calls d = .sending rest)
    {c : Ticket} {rest : Sending} (hc : (s.setCall d stage).calls c = .sending rest) :
    s.lock = .held c ∨ (e.side = .client ∧
      ∀ d', d' ≠ c → d'.uuid = c.uuid → (s.setCall d stage).calls d' = .idle) := by
  have hbefore : ∃ rest, s.calls c = .sending rest := by
    rw [State.setCall_calls] at hc
    split at hc
    · rename_i hcd
      rw [hcd]
      exact hstage ⟨rest, hc⟩
    · exact ⟨rest, hc⟩
  obtain ⟨rest', hrest'⟩ := hbefore
  refine (hx c rest' hrest').imp_right fun ⟨hside, hsole⟩ => ⟨hside, fun d' hne huuid => ?_⟩
  rw [State.setCall_calls]
  split
  · rename_i hd'
    exact absurd (hsole d' hne huuid) (hd' ▸ hd)
  · exact hsole d' hne huuid

/-- While the mutex is free, no call sends under a uuid that has a `Response`. -/
theorem Exclusive.none_sending (hx : Exclusive e s) (hs : History e Allowed s)
    (hlock : s.lock = .free) {u : Uuid} (hresponse : hasResponse u s.log) (d : Ticket)
    (rest : Sending) (hd : d.uuid = u) : s.calls d ≠ .sending rest := by
  intro hsending
  rcases hx d rest hsending with hheld | ⟨hside, hsole⟩
  · cases hlock.symm.trans hheld
  · obtain ⟨f, hf, hrank⟩ := hs.responded hside hresponse
    have hfd : f ≠ d := by
      rintro rfl
      simp [hsending, Stage.rank] at hrank
    simp [hsole f hfd (hf.trans hd.symm), Stage.rank] at hrank

theorem Exclusive.step (hx : Exclusive e s) (hs : History e FreshUuid s)
    (hpoisoned : s.lock ≠ .poisoned) {a : Action} {ev : Event} (ha : FreshUuid s a ∨ a.isReceive)
    (h : Occurs e s a ev t) : Exclusive e t := by
  intro c rest hc
  cases h with
  | @sent d request hside hidle hlock =>
    have hfresh : ∀ d', d'.uuid = d.uuid → s.calls d' = .idle := ha.resolve_right id
    refine .inr ⟨hside, fun d' hne huuid => ?_⟩
    simp only [State.record_calls, State.setCall_calls] at hc ⊢
    by_cases hcd : c = d
    · subst hcd
      rw [if_neg hne]
      exact hfresh d' huuid
    · rw [if_neg hcd] at hc
      rcases hx c rest hc with hheld | ⟨-, hsole⟩
      · cases hlock.symm.trans hheld
      · split
        · rename_i hd'
          cases (hfresh c (hd' ▸ huuid.symm)).symm.trans hc
        · exact hsole d' hne huuid
  | unregistered _ _ hlock => exact absurd hlock hpoisoned
  | @replied d request hresponse hidle hlock =>
    simp only [State.record_calls, State.setCall_calls] at hc ⊢
    by_cases hcd : c = d
    · subst hcd
      exact .inl rfl
    · rw [if_neg hcd] at hc
      rcases hx c rest hc with hheld | ⟨hside, hsole⟩
      · cases hlock.symm.trans hheld
      · refine .inr ⟨hside, fun d' hne huuid => ?_⟩
        split
        · rename_i hd'
          exact absurd hc (hx.none_sending hs hlock hresponse c rest (hd' ▸ huuid.symm))
        · exact hsole d' hne huuid
  | replyFailed _ _ hlock => exact absurd hlock hpoisoned
  | queued hcall => exact hx.setCall (by simp [hcall]) (fun _ => ⟨_, hcall⟩) hc
  | refused hcall => exact hx.setCall (by simp [hcall]) (fun _ => ⟨_, hcall⟩) hc
  | @returnedOk d hcall | @returnedErr d err hcall =>
    refine (hx.setCall (by simp [hcall]) (fun _ => ⟨_, hcall⟩) hc).imp_left fun hheld => ?_
    have hcd : c ≠ d := by
      rintro rfl
      simp at hc
    rw [State.record_lock, State.release_lock, if_neg]
    · exact hheld
    · intro hheld'
      cases hheld.symm.trans hheld'
      exact hcd rfl
  | panicked hcall hlock => exact hx.setCall (by simp [hcall]) (fun _ => ⟨_, hcall⟩) hc
  | @poisoned d hcall hlock =>
    have hcd : c ≠ d := by
      rintro rfl
      simp at hc
    refine (hx.setCall (by simp [hcall]) (fun _ => ⟨_, hcall⟩) hc).imp_left fun hheld => ?_
    cases hlock.symm.trans hheld
    exact absurd rfl hcd
  | dropped hlive => exact hx.setCall (by simp [hlive]) (fun ⟨_, hgone⟩ => by cases hgone) hc
  | dropFailed hlive => exact hx.setCall (by simp [hlive]) (fun ⟨_, hgone⟩ => by cases hgone) hc
  | _ => exact hx c rest hc

/-! ### The queue, seen by one uuid -/

/-- What a call of `u` that sends still has to queue, when `tail` is in the queue. -/
def Continues (u : Uuid) (tail : List Frame) (rest : Sending) : Prop :=
  (∃ r, rest = .done r ∧ tail = []) ∨
    ∃ fs, fs ≠ [] ∧ rest = Sending.queueAll (.done .ok) fs ∧ Transfer u (tail ++ fs)

/-- Whole transfers, then what the call that sends has queued of its own. Once the
receiver is gone nothing is queued, and nothing is said of the calls. -/
def Lined (s : State) (u : Uuid) : Prop :=
  ∃ (transfers : List (List Frame)) (tail : List Frame), (∀ t ∈ transfers, Transfer u t) ∧
    framesOf u s.queue = transfers.flatten ++ tail ∧
    (∃ rest, rest ≠ [] ∧ Transfer u (tail ++ rest)) ∧
    (s.task ≠ .ended →
      (∀ c rest, c.uuid = u → s.calls c = .sending rest → Continues u tail rest) ∧
      ((∀ c rest, c.uuid = u → s.calls c ≠ .sending rest) → tail = []))

theorem transfer_exists (u : Uuid) : ∃ rest, rest ≠ [] ∧ Transfer u ([] ++ rest) :=
  ⟨_, by simp, .oneshot []⟩

/-- Nothing happened that `u` could see. -/
theorem Lined.congr {u : Uuid} (h : Lined s u)
    (hqueue : framesOf u t.queue = framesOf u s.queue) (htask : t.task ≠ .ended → s.task ≠ .ended)
    (hcalls : ∀ c rest, c.uuid = u → (t.calls c = .sending rest ↔ s.calls c = .sending rest)) :
    Lined t u := by
  obtain ⟨transfers, tail, htransfers, hs, htail, hopen⟩ := h
  refine ⟨transfers, tail, htransfers, hqueue.trans hs, htail, fun hended => ?_⟩
  obtain ⟨hcontinues, hnone⟩ := hopen (htask hended)
  exact ⟨fun c rest hu hc => hcontinues c rest hu ((hcalls c rest hu).mp hc),
    fun h => hnone fun c rest hu hc => h c rest hu ((hcalls c rest hu).mpr hc)⟩

/-- A call that opens, when no other sends under its uuid. -/
theorem Lined.opened (hb : e.bandwidth ≠ 0) {c : Ticket} (h : Lined s c.uuid) (request : Request)
    (hsole : ∀ d rest, d.uuid = c.uuid → s.calls d ≠ .sending rest)
    (hqueue : t.queue = s.queue) (htask : t.task = s.task)
    (hcall : t.calls c = .sending (request.sending e.snap e.bandwidth c.uuid))
    (hothers : ∀ d, d ≠ c → t.calls d = s.calls d) : Lined t c.uuid := by
  obtain ⟨transfers, tail, htransfers, hs, htail, hopen⟩ := h
  refine ⟨transfers, tail, htransfers, by rw [hqueue, hs], htail, fun hended => ?_⟩
  have hnil : tail = [] := (hopen (htask ▸ hended)).2 hsole
  refine ⟨fun d rest hu hd => ?_, fun _ => hnil⟩
  by_cases hdc : d = c
  · subst hdc
    cases hcall.symm.trans hd
    rcases request_shape d.uuid hb request with ⟨err, heq⟩ | ⟨fs, hfs, heq⟩
    · exact .inl ⟨_, heq, hnil⟩
    · exact .inr ⟨fs, hfs.ne_nil, heq, by rwa [hnil, List.nil_append]⟩
  · exact absurd (hothers d hdc ▸ hd) (hsole d rest hu)

/-- One frame more of the call that sends. -/
theorem Lined.queued (hx : Exclusive e s) {c : Ticket} {frame : Frame} {rest : Sending}
    (h : Lined s c.uuid) (hcall : s.calls c = .sending (.queue frame rest))
    (hended : s.task ≠ .ended) : frame.uuid = c.uuid.bytes ∧
      Lined (({s.setCall c (.sending rest) with queue := s.queue ++ [frame]}).record
        (.queued c frame)) c.uuid := by
  obtain ⟨transfers, tail, htransfers, hs, -, hopen⟩ := h
  obtain ⟨hcontinues, -⟩ := hopen hended
  rcases hcontinues c _ rfl hcall with ⟨r, hr, -⟩ | ⟨fs, hne, heq, htransfer⟩
  · cases hr
  cases fs with
  | nil => exact absurd rfl hne
  | cons f more =>
    rw [Sending.queueAll] at heq
    cases heq
    have huuid : frame.uuid = c.uuid.bytes := (htransfer.mem frame (by simp)).1
    have hqueue : framesOf c.uuid (s.queue ++ [frame]) =
        transfers.flatten ++ (tail ++ [frame]) := by
      rw [framesOf_own huuid, hs, List.append_assoc]
    have hsole : ∀ d rest', d.uuid = c.uuid → (s.setCall c (.sending
        (Sending.queueAll (.done .ok) more))).calls d = .sending rest' →
        rest' = Sending.queueAll (.done .ok) more := by
      intro d rest' hu hd
      rw [State.setCall_calls] at hd
      split at hd
      · cases hd
        rfl
      · rename_i hdc
        exact absurd (hx.unique hd hcall hu) hdc
    refine ⟨huuid, ?_⟩
    by_cases hmore : more = []
    · subst hmore
      refine ⟨transfers ++ [tail ++ [frame]], [], ?_, ?_, transfer_exists _, fun _ =>
        ⟨fun d rest' hu hd => ?_, fun _ => rfl⟩⟩
      · intro t ht
        rcases List.mem_append.mp ht with ht | ht
        · exact htransfers t ht
        · cases List.mem_singleton.mp ht
          exact htransfer
      · refine hqueue.trans ?_
        simp
      · rw [hsole d rest' hu hd]
        exact .inl ⟨_, rfl, rfl⟩
    · have hstill : Transfer c.uuid (tail ++ [frame] ++ more) := by
        rw [List.append_assoc]
        exact htransfer
      refine ⟨transfers, tail ++ [frame], htransfers, hqueue, ⟨more, hmore, hstill⟩, fun _ =>
        ⟨fun d rest' hu hd => ?_, fun hnone => ?_⟩⟩
      · rw [hsole d rest' hu hd]
        exact .inr ⟨more, hmore, rfl, hstill⟩
      · exact absurd (by simp) (hnone c (Sending.queueAll (.done .ok) more) rfl)

/-- A call that returns has nothing left in the queue. -/
theorem Lined.returned (hx : Exclusive e s) {c : Ticket} {r : Return} (h : Lined s c.uuid)
    (hcall : s.calls c = .sending (.done r)) (hqueue : t.queue = s.queue)
    (htask : t.task = s.task) (hcalls : ∀ d, t.calls d = (if d = c then t.calls c else s.calls d))
    (hdone : ∀ rest, t.calls c ≠ .sending rest) : Lined t c.uuid := by
  obtain ⟨transfers, tail, htransfers, hs, htail, hopen⟩ := h
  refine ⟨transfers, tail, htransfers, by rw [hqueue, hs], htail, fun hended => ?_⟩
  have hnil : tail = [] := by
    rcases (hopen (htask ▸ hended)).1 c _ rfl hcall with ⟨_, -, hnil⟩ | ⟨fs, hne, heq, -⟩
    · exact hnil
    · cases fs with
      | nil => exact absurd rfl hne
      | cons f more => cases heq
  refine ⟨fun d rest hu hd => ?_, fun _ => hnil⟩
  rw [hcalls d] at hd
  split at hd
  · exact absurd hd (hdone rest)
  · rename_i hdc
    exact absurd (hx.unique hd hcall hu) hdc

theorem calls_of_ne {c : Ticket} {stage : Stage} {u : Uuid} (hu : u ≠ c.uuid) (d : Ticket)
    (rest : Sending) (hd : d.uuid = u) :
    (s.setCall c stage).calls d = .sending rest ↔ s.calls d = .sending rest := by
  rw [State.setCall_calls, if_neg]
  rintro rfl
  exact hu hd.symm

theorem lined_step (hb : e.bandwidth ≠ 0) (hx : Exclusive e s) (hs : History e FreshUuid s)
    (hl : ∀ u, Lined s u) {a : Action} {ev : Event} (ha : FreshUuid s a ∨ a.isReceive)
    (h : Occurs e s a ev t) (u : Uuid) : Lined t u := by
  have hpoisoned := (hs.unpanicked hb).1
  cases h with
  | @sent c request _ _ hlock =>
    by_cases hu : u = c.uuid
    · subst hu
      have hfresh : ∀ d, d.uuid = c.uuid → s.calls d = .idle := ha.resolve_right id
      refine (hl c.uuid).opened hb request (fun d rest hd hsending => ?_) rfl rfl ?_ fun d hd => ?_
      · cases (hfresh d hd).symm.trans hsending
      · simp
      · simp [hd]
    · exact (hl u).congr rfl id fun d rest hd => calls_of_ne hu d rest hd
  | unregistered _ _ hlock => exact absurd hlock hpoisoned
  | @replied c request hresponse _ hlock =>
    by_cases hu : u = c.uuid
    · subst hu
      refine (hl c.uuid).opened hb request (hx.none_sending hs hlock hresponse) rfl rfl ?_
        fun d hd => ?_
      · simp
      · simp [hd]
    · exact (hl u).congr rfl id fun d rest hd => calls_of_ne hu d rest hd
  | replyFailed _ _ hlock => exact absurd hlock hpoisoned
  | @queued c frame rest hcall hopen =>
    obtain ⟨huuid, hlined⟩ := (hl c.uuid).queued hx hcall hopen
    by_cases hu : u = c.uuid
    · subst hu
      exact hlined
    · exact (hl u).congr (framesOf_ne huuid hu _) id fun d rest hd => calls_of_ne hu d rest hd
  | refused hcall hclosed =>
    obtain ⟨transfers, tail, htransfers, hqueue, htail, -⟩ := hl u
    exact ⟨transfers, tail, htransfers, hqueue, htail, fun hopen => absurd hclosed hopen⟩
  | @returnedOk c hcall | @returnedErr c err hcall | @panicked c hcall | @poisoned c hcall =>
    by_cases hu : u = c.uuid
    · subst hu
      refine (hl c.uuid).returned hx hcall rfl rfl (fun d => ?_) fun rest => ?_
      · simp
      · simp
    · exact (hl u).congr rfl id fun d rest hd => calls_of_ne hu d rest hd
  | @dropped f hlive | @dropFailed f hlive =>
    refine (hl u).congr rfl id fun d rest hd => ?_
    simp only [State.record_calls, State.setCall_calls]
    split
    · rename_i hdf
      simp [hdf, hlive]
    · rfl
  | selected htask | clearWoke _ htask | clearEmptied htask =>
    exact (hl u).congr rfl (fun _ => by rw [htask]; decide) fun _ _ _ => .rfl
  | canceled _ _ hopen => exact (hl u).congr rfl (fun _ => hopen) fun _ _ _ => .rfl
  | clearWakePanicked | clearEmptyPanicked | receiverDropped | aborted =>
    exact (hl u).congr rfl (fun hended => absurd rfl hended) fun _ _ _ => .rfl
  | _ => exact (hl u).congr rfl id fun _ _ _ => .rfl

theorem History.lined (hb : e.bandwidth ≠ 0) (h : History e FreshUuid s) :
    Exclusive e s ∧ ∀ u, Lined s u := by
  induction h with
  | init =>
    refine ⟨fun c rest hc => (by cases hc), fun u => ⟨[], [], fun t ht => (by cases ht), rfl,
      transfer_exists u, fun _ => ⟨fun c rest _ hc => (by cases hc), fun _ => rfl⟩⟩⟩
  | event hs ha hev ih =>
    obtain ⟨hx, hl⟩ := ih
    exact ⟨hx.step hs (hs.unpanicked hb).1 ha hev, lined_step hb hx hs hl ha hev⟩

/-- A long message and a short one, sent at the same time. -/
def otherCall : Ticket := ⟨⟨List.replicate 16 5, rfl⟩, 0⟩

end Wsmq
