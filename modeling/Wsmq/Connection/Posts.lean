import Wsmq.Connection.Calls
import Wsmq.Connection.Frames
import Wsmq.Receiver.RoundTrip

/-! What the queue of one end says to whoever reads all of it.

A message is posted when the last frame of its transfer is queued (`posts`). A receiver that
read the whole queue (`heard`) would deliver exactly the posted messages, in that order, and
report no error; the contexts it held would be those of the calls that are sending
(`Spoken`). Whatever prefix of the queue it has read, the next frame continues the transfer
of some call (`Continued`). -/
namespace Wsmq
open Receiver

/-- What the calls were asked to send, after the action. -/
def Action.asks (asked : Ticket → Option Request) : Action → Ticket → Option Request
  | .send c request => Function.update asked c (some request)
  | .reply c request => Function.update asked c (some request)
  | _ => asked

/-- The frame is the last of its transfer. -/
def Frame.closes : Frame → Bool
  | .oneshot _ | .end _ => true
  | .begin _ | .process _ => false

/-- The message whose last frame the event queues, with the call that sends it. -/
def Event.post (asked : Ticket → Option Request) : Event → Option (Ticket × Bytes)
  | .queued c frame =>
    if frame.closes then (asked c).bind fun request => request.payload.map fun x => (c, x) else none
  | _ => none

def posts (asked : Ticket → Option Request) (log : List Event) : List (Ticket × Bytes) :=
  log.filterMap (Event.post asked)

/-- The uuid a message goes under, and its bytes. -/
def spoken (post : Ticket × Bytes) : Uuid × Bytes := (post.1.uuid, post.2)

/-- What a receiver makes of the frames of a queue. -/
def heard (P : Protobuf) (S : Snap) (queue : List Frame) : Contexts × List (List Callback) :=
  feed P S (fun _ => false) ∅ (queue.map P.writeToBytes)

variable {P : Protobuf} {S : Snap} {u : Uuid} {x : Bytes} {f : Frame}

/-! ### The last frame of a transfer -/

/-- Only the last frame of a transfer closes it, and it leaves no context. -/
theorem carries_closes {past rest : List Frame} (h : Carries S u x (past ++ f :: rest)) :
    (f.closes = true ↔ rest = []) ∧
      (rest = [] → MessageContext.next (past.foldl MessageContext.next none) f = none) := by
  generalize hfs : past ++ f :: rest = fs at h
  cases h with
  | oneshot =>
    cases past with
    | nil =>
      obtain ⟨rfl, rfl⟩ := List.cons.inj hfs
      exact ⟨iff_of_true rfl rfl, fun _ => rfl⟩
    | cons g more =>
      have hlength := congrArg List.length hfs
      simp at hlength
  | @chunked c chunks hflat hdecode =>
    rcases List.eq_nil_or_concat' rest with rfl | ⟨before, last, rfl⟩
    · rw [← List.cons_append] at hfs
      obtain ⟨-, hf⟩ := List.append_inj' hfs rfl
      cases hf
      exact ⟨iff_of_true rfl rfl, fun _ => rfl⟩
    · rw [← List.cons_append, ← List.cons_append, ← List.append_assoc] at hfs
      obtain ⟨hfront, -⟩ := List.append_inj' hfs rfl
      have hmem : f ∈ beginFrame u c.length :: processFrames u 0 chunks := by
        rw [← hfront]
        simp
      have hopen : f.closes = false := by
        rcases List.mem_cons.mp hmem with rfl | hmem
        · rfl
        · obtain ⟨n, chunk, rfl⟩ := mem_processFrames hmem
          rfl
      rw [hopen]
      exact ⟨iff_of_false Bool.false_ne_true (by simp), fun hnil => by simp at hnil⟩

/-- What a call is asked to send, it sends as one transfer that carries it, or it fails at
once. -/
theorem request_carries_or (hS : S.Inverts) {bandwidth : UInt64} (hb : bandwidth ≠ 0) (u : Uuid)
    (request : Request) :
    (request.payload = none ∧ ∃ err, request.sending S bandwidth u = .done (.err err)) ∨
      ∃ x fs, request.payload = some x ∧ Carries S u x fs ∧
        request.sending S bandwidth u = Sending.queueAll (.done .ok) fs := by
  cases hx : request.payload with
  | some x =>
    obtain ⟨fs, hfs, heq⟩ := request_carries u hS hb hx
    exact .inr ⟨x, fs, rfl, hfs, heq⟩
  | none =>
    cases request with
    | bytes m => cases hx
    | message m =>
      refine .inl ⟨rfl, ?_⟩
      have hwrites : m.writes = none := Option.map_eq_none_iff.mp hx
      rw [Request.sending, SharedData.sendMessage, hwrites]
      split <;> exact ⟨_, rfl⟩

/-! ### One frame more -/

theorem heard_snoc (queue : List Frame) {frame : Frame}
    (hframe : frameOf P (P.writeToBytes frame) = some (u, frame)) :
    (heard P S (queue ++ [frame])).1 =
        Keyed.step MessageContext.next (heard P S queue).1 (u, frame) ∧
      deliveries (heard P S (queue ++ [frame])).2.flatten =
        deliveries (heard P S queue).2.flatten ++
          ((delivered S ((heard P S queue).1.lookup u) frame).map fun x => (u, x)).toList := by
  rw [heard, List.map_append, List.map_singleton, feed_append]
  refine ⟨?_, ?_⟩
  · show (messageDispatch P S _ _ _).1 = _
    rw [dispatch_frame hframe]
    rfl
  · rw [List.flatten_append, deliveries_append]
    congr 1
    show deliveries ((messageDispatch P S _ _ _).2 ++ []) = _
    rw [List.append_nil, deliveries_dispatch, hframe]
    rfl

/-- Who read less heard a beginning of it. -/
theorem heard_take (queue : List Frame) (k : Nat) :
    deliveries (heard P S (queue.take k)).2.flatten <+: deliveries (heard P S queue).2.flatten := by
  refine ⟨deliveries (feed P S (fun _ => false) (heard P S (queue.take k)).1
    ((queue.drop k).map P.writeToBytes)).2.flatten, ?_⟩
  rw [← deliveries_append, ← List.flatten_append]
  conv_rhs => rw [← List.take_append_drop k queue, heard, List.map_append, feed_append]
  rfl

/-! ### The calls and the queue -/

variable {asked asked' : Ticket → Option Request} {e : Endpoint} {s t : State}

/-- The frames are those in which a call under `u` sends what it was asked to send. -/
def SentAs (S : Snap) (bandwidth : UInt64) (asked : Ticket → Option Request) (u : Uuid)
    (fs : List Frame) : Prop :=
  ∃ c request x, c.uuid = u ∧ asked c = some request ∧ request.payload = some x ∧
    Carries S u x fs ∧ (request.sending S bandwidth u).frames = fs

/-- The frame is the next one of a transfer, in the context that the frames before it leave. -/
def Continued (S : Snap) (bandwidth : UInt64) (asked : Ticket → Option Request)
    (context : Option MessageContext) (u : Uuid) (frame : Frame) : Prop :=
  ∃ past rest, SentAs S bandwidth asked u (past ++ frame :: rest) ∧
    context = past.foldl MessageContext.next none

/-- The context is the one that the first frames of a transfer leave, and more are to come. -/
def UnderWay (S : Snap) (bandwidth : UInt64) (asked : Ticket → Option Request)
    (context : MessageContext) (u : Uuid) : Prop :=
  ∃ past rest, SentAs S bandwidth asked u (past ++ rest) ∧ rest ≠ [] ∧
    past.foldl MessageContext.next none = some context

/-- What a call that is sending still has to queue, next to the context of what it queued. -/
inductive Speaking (S : Snap) (bandwidth : UInt64) (context : Option MessageContext) (c : Ticket)
    (request : Request) : Sending → Prop where
  | finished {r} (hnone : context = none) : Speaking S bandwidth context c request (.done r)
  | amid {x past fs} (hx : request.payload = some x) (hne : fs ≠ [])
      (hcarries : Carries S c.uuid x (past ++ fs))
      (hframes : (request.sending S bandwidth c.uuid).frames = past ++ fs)
      (hcontext : context = past.foldl MessageContext.next none) :
      Speaking S bandwidth context c request (Sending.queueAll (.done .ok) fs)

/-- What the queue says is what was posted. While the receiver of the queue is there, its
open contexts belong to the calls that send. -/
structure Spoken (e : Endpoint) (asked : Ticket → Option Request) (s : State) : Prop where
  posted : deliveries (heard e.protobuf e.snap s.queue).2.flatten =
    (posts asked s.log).map spoken
  continued : ∀ k frame, s.queue[k]? = some frame →
    ∃ u, frameOf e.protobuf (e.protobuf.writeToBytes frame) = some (u, frame) ∧
      Continued e.snap e.bandwidth asked
        ((heard e.protobuf e.snap (s.queue.take k)).1.lookup u) u frame
  underWay : ∀ k u context,
    (heard e.protobuf e.snap (s.queue.take k)).1.lookup u = some context →
    UnderWay e.snap e.bandwidth asked context u
  asked_begun : ∀ c request, asked c = some request → s.calls c ≠ .idle
  speaking : s.task ≠ .ended → ∀ c rest, s.calls c = .sending rest →
    ∃ request, asked c = some request ∧
      Speaking e.snap e.bandwidth ((heard e.protobuf e.snap s.queue).1.lookup c.uuid) c request
        rest
  silent : s.task ≠ .ended → ∀ u, (∀ c rest, c.uuid = u → s.calls c ≠ .sending rest) →
    (heard e.protobuf e.snap s.queue).1.lookup u = none

section
variable {bandwidth : UInt64}

theorem SentAs.mono {fs : List Frame} (h : SentAs S bandwidth asked u fs)
    (hasked : ∀ c request, asked c = some request → asked' c = some request) :
    SentAs S bandwidth asked' u fs := by
  obtain ⟨c, request, x, hu, hc, hrest⟩ := h
  exact ⟨c, request, x, hu, hasked c request hc, hrest⟩

theorem Continued.mono {context : Option MessageContext}
    (h : Continued S bandwidth asked context u f)
    (hasked : ∀ c request, asked c = some request → asked' c = some request) :
    Continued S bandwidth asked' context u f := by
  obtain ⟨past, rest, hsent, hcontext⟩ := h
  exact ⟨past, rest, hsent.mono hasked, hcontext⟩

theorem UnderWay.mono {context : MessageContext} (h : UnderWay S bandwidth asked context u)
    (hasked : ∀ c request, asked c = some request → asked' c = some request) :
    UnderWay S bandwidth asked' context u := by
  obtain ⟨past, rest, hsent, hrest⟩ := h
  exact ⟨past, rest, hsent.mono hasked, hrest⟩

end

theorem posts_snoc (log : List Event) (ev : Event) :
    posts asked (log ++ [ev]) = posts asked log ++ (ev.post asked).toList :=
  filterMap_snoc (Event.post asked)

/-- A call is asked when it begins, and not again. -/
theorem Occurs.asks {a : Action} {ev : Event} (h : Occurs e s a ev t) (c : Ticket)
    (hbegun : s.calls c ≠ .idle) : a.asks asked c = asked c := by
  cases h with
  | sent _ hidle | unregistered _ hidle | replied _ hidle | replyFailed _ hidle =>
    refine Function.update_of_ne ?_ _ _
    rintro rfl
    exact hbegun hidle
  | _ => rfl

theorem History.posts_asks {Allowed : State → Action → Prop} (hs : History e Allowed s)
    (hasked : ∀ c, s.calls c ≠ .idle → asked' c = asked c) :
    posts asked' s.log = posts asked s.log := by
  refine List.filterMap_congr fun ev hev => ?_
  cases ev with
  | queued c frame =>
    have hrank := hs.rank_le hev c
    have hbegun : s.calls c ≠ .idle := by
      intro hidle
      simp [Event.rank, hidle, Stage.rank] at hrank
    rw [Event.post, Event.post, hasked c hbegun]
  | _ => rfl

theorem update_asked (h : Spoken e asked s) {c d : Ticket} {request r : Request}
    (hidle : s.calls c = .idle) (hd : asked d = some r) :
    Function.update asked c (some request) d = some r := by
  rw [Function.update_of_ne, hd]
  rintro rfl
  exact h.asked_begun d r hd hidle

/-- Nothing was queued, and the calls that send are the same. -/
theorem Spoken.congr (h : Spoken e asked s)
    (hasked : ∀ c request, asked c = some request → asked' c = some request)
    (hbegun : ∀ c request, asked' c = some request → t.calls c ≠ .idle)
    (hposts : posts asked' t.log = posts asked s.log) (hqueue : t.queue = s.queue)
    (htask : t.task ≠ .ended → s.task ≠ .ended)
    (hcalls : ∀ c rest, t.calls c = .sending rest ↔ s.calls c = .sending rest) :
    Spoken e asked' t where
  posted := by rw [hqueue, hposts, h.posted]
  continued := by
    intro k frame hframe
    rw [hqueue] at hframe ⊢
    obtain ⟨u, hu, hcontinued⟩ := h.continued k frame hframe
    exact ⟨u, hu, hcontinued.mono hasked⟩
  underWay := by
    intro k u context hcontext
    rw [hqueue] at hcontext
    exact (h.underWay k u context hcontext).mono hasked
  asked_begun := hbegun
  speaking := by
    intro hopen c rest hc
    rw [hqueue]
    obtain ⟨request, hrequest, hspeaking⟩ := h.speaking (htask hopen) c rest ((hcalls c rest).mp hc)
    exact ⟨request, hasked c request hrequest, hspeaking⟩
  silent := by
    intro hopen u hnone
    rw [hqueue]
    exact h.silent (htask hopen) u fun c rest hu hc => hnone c rest hu ((hcalls c rest).mpr hc)

/-- A call begins under a uuid that no other is sending under. -/
theorem Spoken.opened (h : Spoken e asked s) (hS : e.snap.Inverts) (hb : e.bandwidth ≠ 0)
    {c : Ticket} {request : Request} (hidle : s.calls c = .idle)
    (hsole : ∀ d rest, d.uuid = c.uuid → s.calls d ≠ .sending rest)
    (hposts : posts (Function.update asked c (some request)) t.log = posts asked s.log)
    (hqueue : t.queue = s.queue) (htask : t.task = s.task)
    (hcalls : ∀ d, t.calls d = if d = c then
      .sending (request.sending e.snap e.bandwidth c.uuid) else s.calls d) :
    Spoken e (Function.update asked c (some request)) t where
  posted := by rw [hqueue, hposts, h.posted]
  continued := by
    intro k frame hframe
    rw [hqueue] at hframe ⊢
    obtain ⟨u, hu, hcontinued⟩ := h.continued k frame hframe
    exact ⟨u, hu, hcontinued.mono fun d r hd => update_asked h hidle hd⟩
  underWay := by
    intro k u context hcontext
    rw [hqueue] at hcontext
    exact (h.underWay k u context hcontext).mono fun d r hd => update_asked h hidle hd
  asked_begun := by
    intro d r hd
    rw [hcalls]
    split
    · exact fun h => by cases h
    · rename_i hdc
      rw [Function.update_of_ne hdc] at hd
      exact h.asked_begun d r hd
  speaking := by
    intro hopen d rest hd
    rw [htask] at hopen
    rw [hqueue]
    rw [hcalls] at hd
    split at hd
    · rename_i hdc
      subst hdc
      cases hd
      have hnone := h.silent hopen d.uuid hsole
      refine ⟨request, Function.update_self _ _ _, ?_⟩
      rcases request_carries_or hS hb d.uuid request with ⟨-, err, heq⟩ | ⟨x, fs, hx, hfs, heq⟩
      · rw [heq]
        exact .finished hnone
      · have hframes : (request.sending e.snap e.bandwidth d.uuid).frames = fs := by
          rw [heq, Sending.frames_queueAll]
          exact List.append_nil _
        rw [heq]
        have hcarries : Carries e.snap d.uuid x ([] ++ fs) := hfs
        exact .amid hx hfs.transfer.ne_nil hcarries hframes hnone
    · obtain ⟨r, hr, hspeaking⟩ := h.speaking hopen d rest hd
      exact ⟨r, update_asked h hidle hr, hspeaking⟩
  silent := by
    intro hopen u hnone
    rw [htask] at hopen
    rw [hqueue]
    refine h.silent hopen u fun d rest hu hd => ?_
    by_cases hdc : d = c
    · cases (hdc ▸ hidle).symm.trans hd
    · exact hnone d rest hu (by rw [hcalls, if_neg hdc, hd])

/-- A call that has nothing left to queue returns. -/
theorem Spoken.returned (h : Spoken e asked s) {c : Ticket} {r : Return}
    (hcall : s.calls c = .sending (.done r)) (hposts : posts asked t.log = posts asked s.log)
    (hqueue : t.queue = s.queue) (htask : t.task = s.task)
    (hcalls : ∀ d, d ≠ c → t.calls d = s.calls d) (hrank : 2 ≤ (t.calls c).rank) :
    Spoken e asked t where
  posted := by rw [hqueue, hposts, h.posted]
  continued := by
    rw [hqueue]
    exact h.continued
  underWay := by
    rw [hqueue]
    exact h.underWay
  asked_begun := by
    intro d request hd hidle
    by_cases hdc : d = c
    · subst hdc
      rw [hidle] at hrank
      exact absurd hrank (by decide)
    · rw [hcalls d hdc] at hidle
      exact h.asked_begun d request hd hidle
  speaking := by
    intro hopen d rest hd
    rw [htask] at hopen
    rw [hqueue]
    have hdc : d ≠ c := by
      rintro rfl
      rw [hd] at hrank
      exact rank_sending rest hrank
    rw [hcalls d hdc] at hd
    exact h.speaking hopen d rest hd
  silent := by
    intro hopen u hnone
    rw [htask] at hopen
    rw [hqueue]
    by_cases hu : c.uuid = u
    · subst hu
      obtain ⟨request, -, hspeaking⟩ := h.speaking hopen c _ hcall
      generalize hdone : Sending.done r = sending at hspeaking
      cases hspeaking with
      | finished hnone => exact hnone
      | @amid x past fs hx hne hcarries hframes =>
        cases fs with
        | nil => exact absurd rfl hne
        | cons f more => cases hdone
    · refine h.silent hopen u fun d rest hd hsending => hnone d rest hd ?_
      have hdc : d ≠ c := by
        rintro rfl
        exact hu hd
      rw [hcalls d hdc, hsending]

/-- One frame more, of the one call that sends under its uuid. -/
theorem Spoken.queued (h : Spoken e asked s) (hP : e.protobuf.Inverts) (hx : Exclusive e s)
    {c : Ticket} {frame : Frame} {rest : Sending} (hcall : s.calls c = .sending (.queue frame rest))
    (hopen : s.task ≠ .ended) : Spoken e asked
      ({s.setCall c (.sending rest) with queue := s.queue ++ [frame]}.record (.queued c frame)) := by
  obtain ⟨request, hrequest, hspeaking⟩ := h.speaking hopen c _ hcall
  generalize hqueue : Sending.queue frame rest = sending at hspeaking
  cases hspeaking with
  | finished => cases hqueue
  | @amid x past fs hpayload hne hcarries hframes hcontext =>
  cases fs with
  | nil => exact absurd rfl hne
  | cons f more =>
  cases hqueue
  obtain ⟨huuid, htype⟩ := hcarries.transfer.mem frame (by simp)
  have hframe := frameOf_write hP huuid htype
  obtain ⟨hdelivered, -, hnext⟩ := carries_frame (fun _ => false) hcarries fun _ => hcontext
  obtain ⟨hcloses, hlast⟩ := carries_closes hcarries
  obtain ⟨hcontexts, hdeliveries⟩ := heard_snoc (S := e.snap) s.queue hframe
  -- The context of the uuid after the frame, and those of the others.
  have hown : (heard e.protobuf e.snap (s.queue ++ [frame])).1.lookup c.uuid =
      MessageContext.next (past.foldl MessageContext.next none) frame := by
    rw [hcontexts, Keyed.lookup_step, if_pos rfl, hcontext]
  have hothers : ∀ u, u ≠ c.uuid → (heard e.protobuf e.snap (s.queue ++ [frame])).1.lookup u =
      (heard e.protobuf e.snap s.queue).1.lookup u := by
    intro u hu
    rw [hcontexts, Keyed.lookup_step, if_neg hu]
  have hsnoc : MessageContext.next (past.foldl MessageContext.next none) frame =
      (past ++ [frame]).foldl MessageContext.next none := by
    rw [List.foldl_append]
    rfl
  have hcarries' : Carries e.snap c.uuid x ((past ++ [frame]) ++ more) := by
    rw [List.append_assoc]
    exact hcarries
  have hframes' : (request.sending e.snap e.bandwidth c.uuid).frames = (past ++ [frame]) ++ more := by
    rw [List.append_assoc]
    exact hframes
  refine ⟨?_, ?_, ?_, ?_, ?_, ?_⟩
  · show deliveries (heard e.protobuf e.snap (s.queue ++ [frame])).2.flatten =
      (posts asked (s.log ++ [.queued c frame])).map spoken
    rw [hdeliveries, h.posted, posts_snoc, List.map_append, hdelivered]
    congr 1
    by_cases hmore : more = []
    · rw [if_pos hmore, Event.post, if_pos (hcloses.mpr hmore), hrequest, Option.bind_some, hpayload]
      rfl
    · rw [if_neg hmore, Event.post, if_neg (mt hcloses.mp hmore)]
      rfl
  · intro k g hg
    show ∃ u, _ ∧ Continued e.snap e.bandwidth asked
      ((heard e.protobuf e.snap ((s.queue ++ [frame]).take k)).1.lookup u) u g
    have hg' : (s.queue ++ [frame])[k]? = some g := hg
    by_cases hk : k < s.queue.length
    · rw [List.getElem?_append_left hk] at hg'
      rw [List.take_append_of_le_length (Nat.le_of_lt hk)]
      exact h.continued k g hg'
    · rw [List.getElem?_append_right (Nat.le_of_not_lt hk)] at hg'
      obtain ⟨hlt, hgf⟩ := List.getElem?_eq_some_iff.mp hg'
      have hk0 : k - s.queue.length = 0 := by simpa using hlt
      have hkl : k = s.queue.length := by omega
      subst hkl
      simp only [Nat.sub_self, List.getElem_singleton] at hgf
      subst hgf
      rw [List.take_left]
      exact ⟨c.uuid, hframe, past, more,
        ⟨c, request, x, rfl, hrequest, hpayload, hcarries, hframes⟩, hcontext⟩
  · intro k u context hlookup
    have hlookup' : (heard e.protobuf e.snap ((s.queue ++ [frame]).take k)).1.lookup u =
        some context := hlookup
    by_cases hk : k ≤ s.queue.length
    · rw [List.take_append_of_le_length hk] at hlookup'
      exact h.underWay k u context hlookup'
    · rw [List.take_of_length_le (by simp; omega)] at hlookup'
      by_cases hu : u = c.uuid
      · subst hu
        rw [hown] at hlookup'
        refine ⟨past ++ [frame], more,
          ⟨c, request, x, rfl, hrequest, hpayload, hcarries', hframes'⟩, ?_, ?_⟩
        · intro hmore
          rw [hlast hmore] at hlookup'
          cases hlookup'
        · rw [← hsnoc, hlookup']
      · rw [hothers u hu] at hlookup'
        refine h.underWay s.queue.length u context ?_
        rw [List.take_length, hlookup']
  · intro d r hd
    simp only [State.record_calls, State.setCall_calls]
    split
    · exact fun h => by cases h
    · exact h.asked_begun d r hd
  · intro _ d rest hd
    simp only [State.record_calls, State.setCall_calls] at hd
    show ∃ r, asked d = some r ∧ Speaking e.snap e.bandwidth
      ((heard e.protobuf e.snap (s.queue ++ [frame])).1.lookup d.uuid) d r rest
    split at hd
    · rename_i hdc
      subst hdc
      cases hd
      refine ⟨request, hrequest, ?_⟩
      by_cases hmore : more = []
      · subst hmore
        exact .finished (hown.trans (hlast rfl))
      · exact .amid hpayload hmore hcarries' hframes' (hown.trans hsnoc)
    · rename_i hdc
      have hu : d.uuid ≠ c.uuid := fun hu => hdc (hx.unique hd hcall hu)
      obtain ⟨r, hr, hspeaking⟩ := h.speaking hopen d rest hd
      refine ⟨r, hr, ?_⟩
      rwa [hothers d.uuid hu]
  · intro _ u hnone
    show (heard e.protobuf e.snap (s.queue ++ [frame])).1.lookup u = none
    have hu : u ≠ c.uuid := by
      rintro rfl
      exact hnone c _ rfl ((State.setCall_calls s c c _).trans (if_pos rfl))
    rw [hothers u hu]
    refine h.silent hopen u fun d rest hd hsending => ?_
    have hdc : d ≠ c := by
      rintro rfl
      exact hu hd.symm
    refine hnone d rest hd ((State.setCall_calls s c d _).trans ?_)
    rw [if_neg hdc, hsending]

/-- **What the queue says is what was posted**: every event keeps it. -/
theorem Spoken.event (h : Spoken e asked s) (hP : e.protobuf.Inverts) (hS : e.snap.Inverts)
    (hb : e.bandwidth ≠ 0) (hs : History e FreshUuid s) {a : Action} {ev : Event}
    (ha : FreshUuid s a ∨ a.isReceive) (hev : Occurs e s a ev t) : Spoken e (a.asks asked) t := by
  have hx := (hs.lined hb).1
  have hpoisoned := (hs.unpanicked hb).1
  have hquiet : ev.post (a.asks asked) = none →
      posts (a.asks asked) t.log = posts asked s.log := by
    intro hpost
    rw [hev.log, posts_snoc, hpost, hs.posts_asks fun c hc => hev.asks c hc]
    exact List.append_nil _
  -- Nothing that a call sends is touched.
  have hsame : ∀ {t : State}, posts asked t.log = posts asked s.log → t.queue = s.queue →
      (t.task ≠ .ended → s.task ≠ .ended) → t.calls = s.calls → Spoken e asked t := by
    intro t hposts hqueue htask hcalls
    refine h.congr (fun _ _ => id) (fun c request hc => ?_) hposts hqueue htask fun c rest => ?_
    · rw [hcalls]
      exact h.asked_begun c request hc
    · rw [hcalls]
  cases hev with
  | @sent c request hside hidle hlock =>
    refine h.opened hS hb hidle (fun d rest hd hsending => ?_) (hquiet rfl) rfl rfl fun d => ?_
    · have hfresh : ∀ d, d.uuid = c.uuid → s.calls d = .idle := ha.resolve_right id
      cases (hfresh d hd).symm.trans hsending
    · exact State.setCall_calls ..
  | unregistered _ _ hlock => exact absurd hlock hpoisoned
  | @replied c request hresponse hidle hlock =>
    refine h.opened hS hb hidle (hx.none_sending hs hlock hresponse) (hquiet rfl) rfl rfl fun d => ?_
    exact State.setCall_calls ..
  | replyFailed _ _ hlock => exact absurd hlock hpoisoned
  | queued hcall hopen => exact h.queued hP hx hcall hopen
  | @refused c frame rest hcall hclosed =>
    refine ⟨?_, h.continued, h.underWay, fun d r hd => ?_, fun hopen => absurd hclosed hopen,
      fun hopen => absurd hclosed hopen⟩
    · exact h.posted.trans (congrArg _ (hquiet rfl).symm)
    · simp only [State.record_calls, State.setCall_calls]
      split
      · exact fun h => by cases h
      · exact h.asked_begun d r hd
  | returnedOk hcall | returnedErr hcall | panicked hcall | poisoned hcall =>
    refine h.returned hcall (hquiet rfl) rfl rfl (fun d hd => ?_) ?_
    · exact (State.setCall_calls ..).trans (if_neg hd)
    · simp [Stage.rank]
  | @dropped f hlive | @dropFailed f hlive =>
    refine h.congr (fun _ _ => id) (fun c request hc => ?_) (hquiet rfl) rfl id fun c rest => ?_
    · simp only [State.record_calls, State.setCall_calls]
      split
      · exact fun h => by cases h
      · exact h.asked_begun c request hc
    · simp only [State.record_calls, State.setCall_calls]
      split
      · rename_i hcf
        simp [hcf, hlive]
      · rfl
  | selected htask | clearWoke _ htask | clearEmptied htask =>
    exact hsame (hquiet rfl) rfl (fun _ => by rw [htask]; decide) rfl
  | canceled _ _ hopen => exact hsame (hquiet rfl) rfl (fun _ => hopen) rfl
  | clearWakePanicked | clearEmptyPanicked | receiverDropped | aborted =>
    exact hsame (hquiet rfl) rfl (fun hended => absurd rfl hended) rfl
  | _ => exact hsame (hquiet rfl) rfl id rfl

/-! ### Each call posts once -/

/-- What call `c` posted. -/
def postsOf (asked : Ticket → Option Request) (c : Ticket) (log : List Event) :
    List (Ticket × Bytes) :=
  (posts asked log).filter fun post => post.1 = c

/-- How far a call that was asked for `request` has come. Once the queue refused a frame of
it, not all its frames are in the queue, and no more will be. -/
structure Told (e : Endpoint) (request : Request) (c : Ticket) (log : List Event) (stage : Stage) :
    Prop where
  progress : Progress c (request.sending e.snap e.bandwidth c.uuid) log stage
  cut : Refused c log → (∃ more, more ≠ [] ∧
    queuedBy c log ++ more = (request.sending e.snap e.bandwidth c.uuid).frames) ∧
    ∀ frame rest, stage ≠ .sending (.queue frame rest)

section
variable {c : Ticket} {request : Request} {log : List Event} {stage stage' : Stage} {ev : Event}

theorem Refused.before (h : Refused c (log ++ [ev])) (hev : ∀ frame, ev ≠ .refused c frame) :
    Refused c log := by
  obtain ⟨frame, hmem⟩ := h
  rcases List.mem_append.mp hmem with hmem | hmem
  · exact ⟨frame, hmem⟩
  · exact absurd (List.mem_singleton.mp hmem).symm (hev frame)

theorem Told.step (h : Told e request c log stage) (hstep : CallStep s c stage ev stage') :
    Told e request c (log ++ [ev]) stage' := by
  refine ⟨h.progress.step hstep, fun hrefused => ?_⟩
  cases hstep with
  | foreign hev | dropped hev =>
    obtain ⟨hmore, hstage⟩ := h.cut (hrefused.before hev.refused)
    rw [queuedBy_snoc, hev.queued, Option.toList_none, List.append_nil]
    exact ⟨hmore, by first | exact hstage | exact fun _ _ h => by cases h⟩
  | queued hopen =>
    exact absurd rfl ((h.cut (hrefused.before fun _ h => by cases h)).2 _ _)
  | @refused frame rest hclosed =>
    cases h.progress with
    | sending hframes hresult hreturns =>
      have hqueued : queuedBy c (log ++ [.refused c frame]) = queuedBy c log := by
        rw [queuedBy_snoc]
        exact List.append_nil _
      refine ⟨⟨frame :: rest.frames, List.cons_ne_nil _ _, ?_⟩, fun _ _ h => by cases h⟩
      rw [hqueued]
      exact hframes
    | ended hrank => exact absurd hrank (rank_sending _)
  | returned hev hqueued hnot hrank =>
    obtain ⟨hmore, -⟩ := h.cut (hrefused.before hnot)
    rw [queuedBy_snoc, hqueued, Option.toList_none, List.append_nil]
    refine ⟨hmore, fun frame rest hstage => ?_⟩
    rw [hstage] at hrank
    exact rank_sending _ hrank

end

/-- Nothing is said of a call that has not begun. -/
theorem Occurs.foreign {a : Action} {ev : Event} {c : Ticket} (h : Occurs e s a ev t)
    (hidle : t.calls c = .idle) : ev.Foreign c := by
  have hne : ∀ {d : Ticket}, t.calls d ≠ .idle → d ≠ c := by
    rintro d hd rfl
    exact hd hidle
  cases h with
  | @queued d frame rest hcall hopen =>
    have hdc : d ≠ c := hne (by simp)
    exact ⟨if_neg hdc, rfl, fun _ h => by cases h⟩
  | @refused d frame rest hcall hclosed =>
    have hdc : d ≠ c := hne (by simp)
    refine ⟨rfl, rfl, fun _ h => ?_⟩
    cases h
    exact hdc rfl
  | @replyFailed d request hresponse hidle' hlock =>
    have hdc : d ≠ c := hne (by simp)
    exact ⟨rfl, if_neg hdc, fun _ h => by cases h⟩
  | @returnedOk d hcall | @returnedErr d err hcall | @panicked d hcall hlock
  | @poisoned d hcall hlock =>
    have hdc : d ≠ c := hne (by simp)
    exact ⟨rfl, if_neg hdc, fun _ h => by cases h⟩
  | _ => exact ⟨rfl, rfl, fun _ h => by cases h⟩

theorem History.foreign {Allowed : State → Action → Prop} (hs : History e Allowed s) {c : Ticket}
    (hidle : s.calls c = .idle) : ∀ ev ∈ s.log, ev.Foreign c := by
  induction hs with
  | init => simp [State.init]
  | @event s t a ev hs ha hev ih =>
    have hbefore : s.calls c = .idle := by
      have hrank := hev.rank_le c
      rw [hidle] at hrank
      cases hstage : s.calls c with
      | idle => rfl
      | _ => simp [hstage, Stage.rank] at hrank
    intro ev' hmem
    rw [hev.log] at hmem
    rcases List.mem_append.mp hmem with hmem | hmem
    · exact ih hbefore ev' hmem
    · cases List.mem_singleton.mp hmem
      exact hev.foreign hidle

/-- Every call that has begun was asked for something, and has come so far. -/
def AllTold (e : Endpoint) (asked : Ticket → Option Request) (s : State) : Prop :=
  ∀ c, s.calls c ≠ .idle → ∃ request, asked c = some request ∧ Told e request c s.log (s.calls c)

theorem AllTold.event (h : AllTold e asked s) (hs : History e FreshUuid s)
    (hpoisoned : s.lock ≠ .poisoned) {a : Action} {ev : Event} (hev : Occurs e s a ev t) :
    AllTold e (a.asks asked) t := by
  intro c hbegun
  by_cases hidle : s.calls c = .idle
  · have hforeign := hs.foreign hidle
    -- The call begins with this event.
    have hbegins : ∀ {request : Request}, t.log = s.log ++ [.opened c] →
        t.calls c = .sending (request.sending e.snap e.bandwidth c.uuid) →
        Told e request c t.log (t.calls c) := by
      intro request hlog hcall
      have hnew : ∀ ev ∈ t.log, ev.Foreign c := by
        intro ev hmem
        rw [hlog] at hmem
        rcases List.mem_append.mp hmem with hmem | hmem
        · exact hforeign ev hmem
        · cases List.mem_singleton.mp hmem
          exact ⟨rfl, rfl, fun _ h => by cases h⟩
      have hqueued : queuedBy c t.log = [] :=
        List.filterMap_eq_nil_iff.mpr fun ev hmem => (hnew ev hmem).queued
      have hreturns : returnsOf c t.log = [] :=
        List.filterMap_eq_nil_iff.mpr fun ev hmem => (hnew ev hmem).returned
      refine ⟨?_, fun ⟨frame, hmem⟩ => absurd rfl ((hnew _ hmem).refused frame)⟩
      rw [hcall]
      exact .sending (by rw [hqueued, List.nil_append]) rfl hreturns
    have hother : ∀ {d : Ticket} {stage : Stage}, t.calls = (s.setCall d stage).calls → d = c := by
      intro d stage hcalls
      by_contra hdc
      rw [hcalls, State.setCall_calls, if_neg (Ne.symm hdc)] at hbegun
      exact hbegun hidle
    cases hev with
    | sent | replied =>
      cases hother rfl
      exact ⟨_, Function.update_self _ _ _, hbegins rfl ((State.setCall_calls ..).trans (if_pos rfl))⟩
    | unregistered _ _ hlock | replyFailed _ _ hlock => exact absurd hlock hpoisoned
    | queued hcall | refused hcall | returnedOk hcall | returnedErr hcall | panicked hcall
    | poisoned hcall =>
      cases hother rfl
      cases hidle.symm.trans hcall
    | dropped hlive | dropFailed hlive =>
      cases hother rfl
      cases hidle.symm.trans hlive
    | _ => exact absurd hidle hbegun
  · obtain ⟨request, hrequest, htold⟩ := h c hidle
    refine ⟨request, (hev.asks c hidle).trans hrequest, ?_⟩
    rw [hev.log]
    exact htold.step (hev.callStep hidle)

/-- What the log says of the messages a call posted: at most one, its own; it when the call
succeeded, none when it failed. -/
structure PostedOnce (asked : Ticket → Option Request) (c : Ticket) (log : List Event) : Prop where
  once : (postsOf asked c log).length ≤ 1
  ok : .returned c .ok ∈ log → ∃ request x, asked c = some request ∧ request.payload = some x ∧
    postsOf asked c log = [(c, x)]
  err : ∀ err, .returned c (.err err) ∈ log → postsOf asked c log = []

section
variable {c : Ticket} {request : Request} {log : List Event} {stage : Stage}

theorem postsOf_eq (hrequest : asked c = some request) (log : List Event) :
    postsOf asked c log = (queuedBy c log).filterMap fun frame =>
      if frame.closes then request.payload.map fun x => (c, x) else none := by
  rw [postsOf, posts, queuedBy, List.filter_filterMap, List.filterMap_filterMap]
  refine List.filterMap_congr fun ev _ => ?_
  cases ev with
  | queued d frame =>
    simp only [Event.post, Event.queuedBy]
    by_cases hdc : d = c
    · subst hdc
      rw [if_pos rfl, Option.bind_some, hrequest, Option.bind_some]
      split
      · cases request.payload <;> simp
      · rfl
    · rw [if_neg hdc, Option.bind_none]
      split
      · cases hasked : asked d with
        | none => rfl
        | some r => cases hx : r.payload <;> simp [hx, hdc]
      · rfl
  | _ => rfl

/-- Before its last frame a transfer posts nothing, with it one message. -/
theorem carries_posts {done more : List Frame} (h : Carries S u x (done ++ more)) (y : Ticket × Bytes) :
    (done.filterMap fun frame => if frame.closes then some y else none) =
      if more = [] then [y] else [] := by
  have hopen : ∀ {pre post : List Frame}, Carries S u x (pre ++ post) → post ≠ [] →
      (pre.filterMap fun frame => if frame.closes then some y else none) = [] := by
    intro pre post hcarries hpost
    refine List.filterMap_eq_nil_iff.mpr fun f hf => ?_
    obtain ⟨a, b, rfl⟩ := List.append_of_mem hf
    rw [List.append_assoc, List.cons_append] at hcarries
    rw [if_neg (mt (carries_closes hcarries).1.mp (by simp [hpost]))]
  split
  · rename_i hmore
    subst hmore
    rw [List.append_nil] at h
    rcases List.eq_nil_or_concat' done with rfl | ⟨front, last, rfl⟩
    · exact absurd rfl h.transfer.ne_nil
    · rw [List.filterMap_append, hopen h (List.cons_ne_nil _ _)]
      have hlast := (carries_closes h).1.mpr rfl
      simp [hlast]
  · exact hopen h ‹_›

/-- A call has posted its message once all frames of its transfer are queued. -/
theorem postsOf_queued (hrequest : asked c = some request) (hx : request.payload = some x)
    {more : List Frame} (h : Carries S u x (queuedBy c log ++ more)) :
    postsOf asked c log = if more = [] then [(c, x)] else [] := by
  rw [postsOf_eq hrequest, hx, ← carries_posts h (c, x)]
  rfl

theorem Told.queued_prefix (h : Told e request c log stage) :
    ∃ more, queuedBy c log ++ more = (request.sending e.snap e.bandwidth c.uuid).frames := by
  cases h.progress with
  | sending hframes => exact ⟨_, hframes⟩
  | refused hrefused =>
    obtain ⟨⟨more, -, hmore⟩, -⟩ := h.cut hrefused
    exact ⟨more, hmore⟩
  | ended hstage hreturns hall =>
    obtain ⟨hframes, -⟩ | ⟨hrefused, -⟩ := hall
    · exact ⟨[], (List.append_nil _).trans hframes⟩
    · obtain ⟨⟨more, -, hmore⟩, -⟩ := h.cut hrefused
      exact ⟨more, hmore⟩

theorem Told.postedOnce (h : Told e request c log stage) (hrequest : asked c = some request)
    (hS : e.snap.Inverts) (hb : e.bandwidth ≠ 0) : PostedOnce asked c log := by
  obtain ⟨hpayload, err, heq⟩ | ⟨x, fs, hpayload, hfs, heq⟩ :=
    request_carries_or hS hb c.uuid request
  · -- A message that cannot be written: no frame at all.
    have hnil : postsOf asked c log = [] := by
      obtain ⟨more, hmore⟩ := h.queued_prefix
      rw [heq] at hmore
      obtain ⟨hqueued, -⟩ := List.append_eq_nil_iff.mp hmore
      rw [postsOf_eq hrequest, hqueued]
      rfl
    refine ⟨by rw [hnil]; exact Nat.zero_le _, fun hok => ?_, fun _ _ => hnil⟩
    obtain ⟨-, ⟨-, hresult⟩ | ⟨-, hresult⟩⟩ := h.progress.returned (mem_returnsOf hok)
    · rw [heq] at hresult
      cases hresult
    · cases hresult
  · have hframes : (request.sending e.snap e.bandwidth c.uuid).frames = fs := by
      rw [heq, Sending.frames_queueAll]
      exact List.append_nil _
    have hposts : ∀ more, queuedBy c log ++ more = fs →
        postsOf asked c log = if more = [] then [(c, x)] else [] := by
      rintro more rfl
      exact postsOf_queued hrequest hpayload hfs
    refine ⟨?_, fun hok => ⟨request, x, hrequest, hpayload, ?_⟩, fun err herr => ?_⟩
    · obtain ⟨more, hmore⟩ := h.queued_prefix
      rw [hposts more (hmore.trans hframes)]
      split
      · exact Nat.le_refl _
      · exact Nat.zero_le _
    · obtain ⟨-, ⟨hqueued, -⟩ | ⟨-, hresult⟩⟩ := h.progress.returned (mem_returnsOf hok)
      · rw [hposts [] ((List.append_nil _).trans (hqueued.trans hframes)), if_pos rfl]
      · cases hresult
    · obtain ⟨-, ⟨-, hresult⟩ | ⟨hrefused, -⟩⟩ := h.progress.returned (mem_returnsOf herr)
      · rw [heq, Sending.result_queueAll] at hresult
        cases hresult
      · obtain ⟨⟨more, hne, hmore⟩, -⟩ := h.cut hrefused
        rw [hposts more (hmore.trans hframes), if_neg hne]

end

theorem AllTold.postedOnce {Allowed : State → Action → Prop} (h : AllTold e asked s)
    (hs : History e Allowed s) (hS : e.snap.Inverts) (hb : e.bandwidth ≠ 0) (c : Ticket) :
    PostedOnce asked c s.log := by
  by_cases hidle : s.calls c = .idle
  · have hforeign := hs.foreign hidle
    have hreturns : ∀ r, .returned c r ∉ s.log := by
      intro r hmem
      have hnone := (hforeign _ hmem).returned
      simp [Event.returnOf] at hnone
    have hnil : postsOf asked c s.log = [] := by
      rw [postsOf, List.filter_eq_nil_iff]
      intro post hmem hc
      obtain ⟨ev, hev, hpost⟩ := List.mem_filterMap.mp hmem
      have hqueued := (hforeign ev hev).queued
      cases ev with
      | queued d frame =>
        have hdc : d ≠ c := fun hdc => by simp [Event.queuedBy, hdc] at hqueued
        simp only [Event.post] at hpost
        split at hpost
        · obtain ⟨r, -, hr⟩ := Option.bind_eq_some_iff.mp hpost
          obtain ⟨x, -, rfl⟩ := Option.map_eq_some_iff.mp hr
          exact hdc (of_decide_eq_true hc)
        · cases hpost
      | _ => cases hpost
    exact ⟨by rw [hnil]; exact Nat.zero_le _, fun hok => absurd hok (hreturns _),
      fun err herr => absurd herr (hreturns _)⟩
  · obtain ⟨request, hrequest, htold⟩ := h c hidle
    exact htold.postedOnce hrequest hS hb

end Wsmq
